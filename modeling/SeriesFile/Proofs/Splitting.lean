import SeriesFile.Proofs.Limits

/-!
# Where chunks end

As long as no pressure has to be relieved and nothing is flushed by hand, the points of a series are
cut into chunks without regard to other series: each chunk is the shortest front of what is left
that reaches a limit, and what reaches none is the last chunk (`Options.GreedySplit`). There is one
such split only (`GreedySplit.unique`). If the bytes never decide, all chunks but the last have as
many points as the limit says (`GreedySplit.even`).

A writer keeps to it since a buffer is written by the call that makes it full: every run so far has
reached a limit, but not before its last point, and what is buffered has reached none (`Greedy`).
Closing makes what is buffered the last chunk of its series (`Greedy.split`).
-/

namespace SeriesFile

/-! ### The greedy split -/

namespace Options

variable {o : Options} {points chunk chunk' rest rest' front : List Point}
  {chunks chunks' : List (List Point)}

/-- Points that have reached a limit of a chunk. -/
def Reaches (o : Options) (points : List Point) : Prop :=
  o.maxChunkPoints ≤ points.length ∨ o.maxChunkBytes ≤ Buffer.costs points

/-- Points that reach a limit, while no fewer of them, from the first on, do. -/
structure Shortest (o : Options) (chunk : List Point) : Prop where
  nonempty : chunk ≠ []
  reaches : o.Reaches chunk
  least : ∀ front, front <+: chunk → front ≠ [] → o.Reaches front → front = chunk

/-- Some points cut into chunks, each of them as short as can be, and the rest. -/
inductive GreedySplit (o : Options) : List Point → List (List Point) → Prop
  | nil : GreedySplit o [] []
  | last {points : List Point} (nonempty : points ≠ []) (below : ¬o.Reaches points) :
      GreedySplit o points [points]
  | chunk {points chunk rest : List Point} {chunks : List (List Point)}
      (points_eq : points = chunk ++ rest) (shortest : o.Shortest chunk)
      (split : GreedySplit o rest chunks) : GreedySplit o points (chunk :: chunks)

/-- Points that have reached no limit are below both. -/
theorem not_reaches_iff : ¬o.Reaches points ↔ o.Below points := by
  rw [Reaches, not_or, Nat.not_le, Nat.not_le]
  exact ⟨fun ⟨hlength, hcosts⟩ => ⟨hlength, hcosts⟩, fun h => ⟨h.length, h.costs⟩⟩

/-- What is a front of other points reaches no limit that those do not. -/
theorem Reaches.of_front (h : o.Reaches front) (hp : front <+: points) : o.Reaches points := by
  obtain ⟨rest, rfl⟩ := hp
  rcases h with hlength | hcosts
  · left
    rw [List.length_append]
    exact Nat.le_trans hlength (Nat.le_add_right _ _)
  · right
    rw [Buffer.costs_append]
    exact Nat.le_trans hcosts (Nat.le_add_right _ _)

/-- Points that reached a limit with the last of them are as few as can be. -/
theorem Fits.shortest (h : o.Fits chunk) (hne : chunk ≠ []) (hreaches : o.Reaches chunk) :
    o.Shortest chunk := by
  refine ⟨hne, hreaches, ?_⟩
  intro front hp hfront hr
  rw [← List.dropLast_append_getLast hne] at hp
  rcases List.prefix_concat_iff.1 hp with heq | hp
  · rw [heq, List.dropLast_append_getLast]
  · -- A shorter front is one of the points without the last, which have reached no limit.
    have hlength : 2 ≤ chunk.length := by
      have hle := hp.length_le
      have hpos := List.length_pos_iff.2 hfront
      rw [List.length_dropLast] at hle
      omega
    exact absurd (hr.of_front hp) (not_reaches_iff.2 (h hlength))

/-- Two shortest fronts of the same points are the same: one of them is a front of the other. -/
theorem Shortest.eq_of_append (h : o.Shortest chunk) (h' : o.Shortest chunk')
    (heq : chunk ++ rest = chunk' ++ rest') : chunk = chunk' := by
  have hp : chunk <+: chunk' ++ rest' := heq ▸ List.prefix_append chunk rest
  rcases List.prefix_or_prefix_of_prefix hp (List.prefix_append chunk' rest') with hp | hp
  · exact h'.least chunk hp h.nonempty h.reaches
  · exact (h.least chunk' hp h'.nonempty h'.reaches).symm

namespace GreedySplit

/-- Points are cut into chunks in one way only. -/
theorem unique (h : o.GreedySplit points chunks) (h' : o.GreedySplit points chunks') :
    chunks' = chunks := by
  induction h generalizing chunks' with
  | nil =>
    cases h' with
    | nil => rfl
    | last nonempty _ => contradiction
    | chunk points_eq shortest _ =>
      exact absurd (List.append_eq_nil_iff.1 points_eq.symm).1 shortest.nonempty
  | last nonempty below =>
    cases h' with
    | nil => contradiction
    | last _ _ => rfl
    | chunk points_eq shortest _ =>
      -- Points below the limits have no front that reaches one.
      exact absurd (shortest.reaches.of_front ⟨_, points_eq.symm⟩) below
  | chunk points_eq shortest _ ih =>
    cases h' with
    | nil => exact absurd (List.append_eq_nil_iff.1 points_eq.symm).1 shortest.nonempty
    | last _ below => exact absurd (shortest.reaches.of_front ⟨_, points_eq.symm⟩) below
    | chunk points_eq' shortest' split' =>
      rw [points_eq] at points_eq'
      obtain rfl := shortest.eq_of_append shortest' points_eq'
      rw [← List.append_cancel_left points_eq'] at split'
      rw [ih split']

/-- Shortest chunks in front of points that are split. -/
theorem append (h : ∀ chunk ∈ chunks, o.Shortest chunk) (h' : o.GreedySplit rest chunks') :
    o.GreedySplit (chunks.flatten ++ rest) (chunks ++ chunks') := by
  induction chunks with
  | nil => exact h'
  | cons chunk chunks ih =>
    have hrest := ih fun other ho => h other (.tail _ ho)
    refine .chunk ?_ (h chunk (.head _)) hrest
    rw [List.flatten_cons, List.append_assoc]

end GreedySplit

/-- Of the limits of a chunk only that of its points matters: fewer points, wherever they stand,
never take up as many bytes as would fill a chunk. -/
structure OnlyCounts (o : Options) (points : List Point) : Prop where
  limit : 1 ≤ o.maxChunkPoints
  bytes : ∀ part, part <:+: points → part.length < o.maxChunkPoints →
    Buffer.costs part < o.maxChunkBytes

/-- This is so if all points together take up less. -/
theorem OnlyCounts.of_costs (hlimit : 1 ≤ o.maxChunkPoints)
    (hcosts : Buffer.costs points < o.maxChunkBytes) : o.OnlyCounts points := by
  refine ⟨hlimit, ?_⟩
  rintro part ⟨before, behind, rfl⟩ -
  rw [Buffer.costs_append, Buffer.costs_append] at hcosts
  omega

/-- If only the number of points matters, a shortest chunk has as many as the limit says: it cannot
have fewer, and with more it would not be the shortest. -/
theorem OnlyCounts.length_shortest (h : o.OnlyCounts points) (hchunk : o.Shortest chunk)
    (hp : chunk <+: points) : chunk.length = o.maxChunkPoints := by
  have hleast : o.maxChunkPoints ≤ chunk.length := by
    rcases hchunk.reaches with hlength | hcosts
    · exact hlength
    · by_contra hless
      exact absurd (h.bytes chunk hp.isInfix (Nat.lt_of_not_le hless)) (Nat.not_lt.2 hcosts)
  have htake : (chunk.take o.maxChunkPoints).length = o.maxChunkPoints :=
    List.length_take_of_le hleast
  have heq : chunk.take o.maxChunkPoints = chunk := by
    apply hchunk.least _ (List.take_prefix _ _)
    · apply List.ne_nil_of_length_pos
      rw [htake]
      exact h.limit
    · left
      rw [htake]
  rw [heq] at htake
  exact htake

/-- If only the number of points matters, all chunks but the last have as many as they may. -/
theorem GreedySplit.even (h : o.GreedySplit points chunks) (hcounts : o.OnlyCounts points) :
    chunks.length = (points.length + o.maxChunkPoints - 1) / o.maxChunkPoints ∧
      ∀ chunk ∈ chunks.dropLast, chunk.length = o.maxChunkPoints := by
  have hlimit := hcounts.limit
  induction h with
  | nil =>
    refine ⟨?_, fun chunk hc => by contradiction⟩
    rw [List.length_nil, List.length_nil, Nat.zero_add, Nat.div_eq_of_lt (by omega)]
  | @last points nonempty below =>
    refine ⟨?_, fun chunk hc => by contradiction⟩
    have hlength := (not_reaches_iff.1 below).length
    have hpos := List.length_pos_iff.2 nonempty
    -- There is one chunk, and the quotient is rounded up to one.
    have hquotient : (points.length + o.maxChunkPoints - 1) / o.maxChunkPoints = 1 := by
      rw [show points.length + o.maxChunkPoints - 1 = points.length - 1 + o.maxChunkPoints by omega,
        Nat.add_div_right _ hlimit, Nat.div_eq_of_lt (by omega)]
    rw [hquotient]
    rfl
  | @chunk points chunk rest chunks points_eq shortest _ ih =>
    have hchunk := hcounts.length_shortest shortest ⟨rest, points_eq.symm⟩
    -- What is left is a part of the points, so nothing else matters for it either.
    have hrest : o.OnlyCounts rest := by
      refine ⟨hlimit, fun part hpart => hcounts.bytes part (hpart.trans ?_)⟩
      rw [points_eq]
      exact (List.suffix_append chunk rest).isInfix
    obtain ⟨hlength, hfull⟩ := ih hrest
    constructor
    · rw [points_eq, List.length_append, hchunk, List.length_cons, hlength,
        show o.maxChunkPoints + rest.length + o.maxChunkPoints - 1 =
          rest.length + o.maxChunkPoints - 1 + o.maxChunkPoints by omega,
        Nat.add_div_right _ hlimit]
    · cases chunks with
      | nil =>
        intro other ho
        contradiction
      | cons next others =>
        intro other ho
        rw [List.dropLast_cons_cons] at ho
        rcases List.mem_cons.1 ho with rfl | ho
        · exact hchunk
        · exact hfull other ho

/-- Chunks into which some points are cut, in the only way there is. -/
structure SplitInto (o : Options) (points : List Point) (chunks : List (List Point)) : Prop where
  greedy : o.GreedySplit points chunks
  unique : ∀ other, o.GreedySplit points other → other = chunks
  even : o.OnlyCounts points →
    chunks.length = (points.length + o.maxChunkPoints - 1) / o.maxChunkPoints ∧
      ∀ chunk ∈ chunks.dropLast, chunk.length = o.maxChunkPoints

/-- A greedy split is the only one. -/
theorem GreedySplit.splitInto (h : o.GreedySplit points chunks) : o.SplitInto points chunks :=
  ⟨h, fun _ h' => h.unique h', h.even⟩

end Options

/-! ### The chunks of a series in a file -/

/-- The points of every chunk of a series, in the order in which the index lists the chunks; `none`
if a chunk is missing or damaged. -/
def Document.split? (d : Document) (key : SeriesKey) : Option (List (List Point)) :=
  match d.footer.find? key with
  | none => some []
  | some e => e.chunks.mapM fun entry =>
    (d.chunkAt? entry.offset).bind fun chunk => chunk.points.toOption

section

variable [Compressor]

namespace Run

variable {key : SeriesKey} {runs : List Run}

/-- The points of the runs of a series, run by run. -/
def splitOf (key : SeriesKey) (runs : List Run) : List (List Point) :=
  (runs.filter fun run => run.key = key).map points

/-- Runs that come later add their chunks at the end. -/
theorem splitOf_append (key : SeriesKey) (runs new : List Run) :
    splitOf key (runs ++ new) = splitOf key runs ++ splitOf key new := by
  rw [splitOf, List.filter_append, List.map_append, splitOf, splitOf]

/-- All chunks of a series together are its points. -/
theorem flatten_splitOf (key : SeriesKey) (runs : List Run) :
    (splitOf key runs).flatten = pointsOf key runs := rfl

/-- The chunks of a series are told by its runs with their places. -/
theorem splitOf_eq_map (key : SeriesKey) (runs : List Run) :
    splitOf key runs = ((inFile runs).filter fun placed => placed.2.key = key).map
      fun placed => placed.2.points := by
  conv => lhs; rw [splitOf, ← map_inFile runs, List.filter_map, List.map_map]
  rfl

end Run

/-- From the entries of some runs their points are read, each through its place. -/
theorem Document.mapM_map_entry {d : Document} {runs : List Run}
    (hd : d.chunks = (Run.inFile runs).map fun placed => ⟨placed.1, placed.2.chunk⟩)
    (fits : ∀ placed ∈ Run.inFile runs, placed.1 < 2 ^ 64) {some : List (Nat × Run)}
    (h : ∀ placed ∈ some, placed ∈ Run.inFile runs) :
    ((some.map Run.entry).mapM fun entry =>
      (d.chunkAt? entry.offset).bind fun chunk => chunk.points.toOption) =
        .some (some.map fun placed => placed.2.points) := by
  induction some with
  | nil => rfl
  | cons placed others ih =>
    have hmem := h placed (.head _)
    have hrest := ih fun other ho => h other (.tail _ ho)
    rw [List.map_cons, List.mapM_cons, hrest, Run.entry, chunkAt?_of_mem hd (h placed (.head _))
      (fits placed hmem), Option.bind_some, placed.2.points_eq]
    rfl

/-- Through the footer of a sealed file the runs of every series are found. -/
theorem Sealed.split?_eq [Logarithm] {registry : Registry} {rateBits : UInt64} {runs : List Run}
    {index : SeriesTable SeriesEntry} (h : Sealed registry rateBits runs index) {d : Document}
    (hfooter : d.footer = Footer.build registry index.values rateBits)
    (hlocated : d.located = (Run.inFile runs).map fun placed =>
      (placed.2.key.device, ⟨placed.1, placed.2.chunk⟩)) (key : SeriesKey) :
    d.split? key = some (Run.splitOf key runs) := by
  -- A series without points has no entry, and no chunks.
  by_cases hkey : Run.pointsOf key runs = []
  · have hsplit : Run.splitOf key runs = [] := by
      rw [Run.splitOf_eq_map, List.map_eq_nil_iff]
      exact List.map_eq_nil_iff.1 (Run.pointsOf_eq_nil_iff.1 hkey)
    rw [Document.split?, hfooter, h.find?_eq_none hkey, hsplit]
  · obtain ⟨e, hfind, hentries⟩ := h.find?_eq_some hkey
    rw [Document.split?, hfooter, hfind, Run.splitOf_eq_map]
    dsimp only
    rw [hentries]
    apply Document.mapM_map_entry (Document.chunks_of_located hlocated)
      (fun _ hp => h.place_lt hp)
    intro placed hp
    exact (List.mem_filter.1 hp).1

/-- Of runs of different series at most one is of any series. -/
theorem Run.filter_key_cases {runs : List Run} (h : (runs.map Run.key).Nodup) (key : SeriesKey) :
    (runs.filter fun run => run.key = key) = [] ∨
      ∃ run ∈ runs, run.key = key ∧ (runs.filter fun run => run.key = key) = [run] := by
  induction runs with
  | nil => exact .inl rfl
  | cons run runs ih =>
    obtain ⟨hfirst, hrest⟩ := List.nodup_cons.1 h
    by_cases hkey : run.key = key
    · have hnone : (runs.filter fun run => run.key = key) = [] := by
        apply List.filter_eq_nil_iff.2
        intro other ho heq
        apply hfirst
        rw [hkey, ← of_decide_eq_true heq]
        exact List.mem_map_of_mem ho
      refine .inr ⟨run, .head _, hkey, ?_⟩
      rw [List.filter_cons_of_pos (by simpa using hkey), hnone]
    · rw [List.filter_cons_of_neg (by simpa using hkey)]
      exact (ih hrest).imp_right fun ⟨other, ho, hother⟩ => ⟨other, .tail _ ho, hother⟩

omit [Compressor] in
/-- A buffer that is full has reached a limit with its points. -/
theorem Buffer.Portioned.reaches {o : Options} {time : Int64} {b : Buffer}
    (h : b.Portioned o time) (hfull : b.isFull o = true) : o.Reaches b.points := by
  rw [isFull, Bool.or_eq_true, decide_eq_true_eq, decide_eq_true_eq, h.length, h.rawBytes] at hfull
  exact hfull

end

namespace Writer

variable {σ : Type} [Sink σ] [Compressor] {o : Opening σ} {runs new : List Run}
  {ledger ledger' : Ledger} {time : Int64} {w w₁ w' : Writer σ}

/-! ### Greedy writers -/

/-- An open writer of which every run has reached a limit with its last point, while what it buffers
has reached none. -/
structure Greedy (o : Opening σ) (runs : List Run) (ledger : Ledger) (w : Writer σ) : Prop
    extends Steady o runs ledger w where
  reaches : ∀ run ∈ runs, o.options.Reaches run.points

namespace Greedy

/-- A new writer has no runs and buffers nothing. -/
theorem start {sink : σ} {registry : Registry} {options : Options}
    (h : start sink registry options = .ok w) :
    Greedy ⟨sink, registry, options⟩ [] (Ledger.new registry) w :=
  ⟨.start h, fun _ hr => (List.not_mem_nil hr).elim⟩

/-- What points that are received make full has reached a limit, and nothing else is written. -/
theorem received (h : Greedy o runs ledger w) (ha : Received o runs ledger' time w w')
    (hbound : w'.bufferedBytes ≤ w'.options.maxBufferedBytes) :
    ∃ runs', Greedy o runs' ledger' w' := by
  obtain ⟨full, w₁, hall, ⟨new, hdrains, h'⟩, hempty, hkept⟩ := ha
  rw [h'.options_eq] at hbound
  refine ⟨runs ++ new, h.drained hall hdrains h' hempty hbound, ?_⟩
  intro run hr
  rcases List.mem_append.1 hr with hr | hr
  · exact h.reaches run hr
  obtain ⟨b, hb, hfilled, hpoints⟩ := hdrains.exists_buffer hr
  -- A run of a series that did not become full would have come from a buffer that was not emptied.
  have hmem : run.key ∈ full := by
    by_contra hnot
    apply hdrains.not_filled hr
    exact ⟨b, by rw [hkept run.key hnot, hb], hfilled⟩
  obtain ⟨b', hb', -, hfull⟩ := hall.due_of_mem hmem
  obtain rfl := Option.some.inj (hb.symm.trans hb')
  have hportioned := ((h.portioned time).allBuffered hall) run.key b hb
  rw [hpoints, ← h.holds.options_eq, ← hall.options_eq]
  exact hportioned.reaches hfull

/-- Closing makes what is buffered of a series its last chunk. -/
theorem split (h : Greedy o runs ledger w) (hdrains : Drains { w with state := .closing } new w₁)
    (key : SeriesKey) : o.options.SplitInto (Run.pointsOf key (runs ++ new))
      (Run.splitOf key (runs ++ new)) := by
  apply Options.GreedySplit.splitInto
  rw [← Run.flatten_splitOf, Run.splitOf_append, List.flatten_append]
  apply Options.GreedySplit.append
  · intro chunk hchunk
    obtain ⟨run, hr, rfl⟩ := List.mem_map.1 hchunk
    have hr := (List.mem_filter.1 hr).1
    exact (h.fits run hr).shortest run.points_ne_nil (h.reaches run hr)
  -- Closing wrote at most one run for a series, since each buffer is written once.
  rcases Run.filter_key_cases hdrains.nodup_keys key with hnone | ⟨run, hr, -, hsome⟩
  · rw [Run.splitOf, hnone]
    exact .nil
  · rw [Run.splitOf, hsome, List.map_singleton, List.flatten_singleton]
    obtain ⟨b, hb, hfilled, hpoints⟩ := hdrains.exists_buffer hr
    apply Options.GreedySplit.last run.points_ne_nil
    rw [hpoints, Options.not_reaches_iff, ← h.holds.options_eq]
    exact (h.portioned 0 run.key b hb).below (h.not_full hb hfilled)

end Greedy

variable [Logarithm] {ops : List Operation} {op : Operation}

/-- Whether operations never leave any pressure to be relieved. -/
def unpressed (w : Writer σ) : List Operation → Bool
  | [] => true
  | op :: ops =>
    (match receive op w with
      | .ok () w' => w'.bufferedBytes ≤ w'.options.maxBufferedBytes
      | .error _ _ => true) && unpressed (w.perform op).2 ops

namespace Greedy

/-- A point or a record, refused or received, leaves a greedy writer behind unless the writer is
lost. -/
theorem perform (h : Greedy o runs ledger w) (hop : op.offers = true)
    (hbound : ∀ w', receive op w = .ok () w' → w'.bufferedBytes ≤ w'.options.maxBufferedBytes)
    (hopen : (w.perform op).2.state.isTerminal = false) :
    ∃ runs', Greedy o runs' (ledger.perform op).2 (w.perform op).2 := by
  rcases h.holds.receive_cases hop with ⟨fault, hl, hrefused⟩ | ⟨ledger', time, hl, hends⟩
  · have haction : action op w = .error fault w := by
      rw [action_eq_receive hop, bind_error hrefused]
    rw [perform_error haction, hl]
    exact ⟨runs, h⟩
  · cases hreceive : receive op w with
    | ok done w' =>
      have hbound := hbound w' hreceive
      have haction : action op w = .ok () w' := by
        rw [action_eq_receive hop, bind_ok hreceive, relievePressure_idle hbound]
      rw [perform_ok haction, hl]
      exact h.received (hends.of_ok hreceive) hbound
    | error fault w' =>
      have haction : action op w = .error fault w' := by
        rw [action_eq_receive hop, bind_error hreceive]
      rw [perform_error haction, isTerminal_of_aborted (hends.of_error hreceive).aborted] at hopen
      contradiction

/-- Points and records leave a greedy writer behind as long as there is no pressure to relieve. -/
theorem performAll (h : Greedy o runs ledger w) (hops : ops.all Operation.offers = true)
    (hunpressed : w.unpressed ops = true) (hactive : (w.after ops).state = .active) :
    ∃ runs', Greedy o runs' (ledger.performAll ops).2 (w.after ops) := by
  induction ops generalizing w runs ledger with
  | nil => exact ⟨runs, h⟩
  | cons op ops ih =>
    rw [List.all_cons, Bool.and_eq_true] at hops
    rw [unpressed, Bool.and_eq_true] at hunpressed
    -- A writer that was lost stays so, and this one is open in the end.
    have hopen : (w.perform op).2.state.isTerminal = false := by
      by_contra hterminal
      rw [Bool.not_eq_false] at hterminal
      rw [after_cons, after_terminal hterminal] at hactive
      rw [hactive] at hterminal
      contradiction
    have hbound : ∀ w', receive op w = .ok () w' →
        w'.bufferedBytes ≤ w'.options.maxBufferedBytes := by
      intro w' hreceive
      have hmet := hunpressed.1
      rw [hreceive] at hmet
      exact of_decide_eq_true hmet
    obtain ⟨runs₁, h₁⟩ := h.perform hops.1 hbound hopen
    exact ih h₁ hops.2 hunpressed.2 hactive

end Greedy

/-! ### Closed files -/

/-- If points and records are written, no pressure has to be relieved and the file is closed, then
the chunks of every series, in the order of the index, are the greedy split of its accepted
points. -/
theorem close_splits {sink : σ} {registry : Registry} {options : Options}
    {opened closed : Writer σ} (hstart : Writer.start sink registry options = .ok opened)
    (hops : ops.all Operation.offers = true) (hunpressed : opened.unpressed ops = true)
    (hclose : close (opened.after ops) = .ok () closed) :
    (opened.performAll ops).1 = ((Ledger.new registry).performAll ops).1 ∧
      ∃ bytes d, Sink.accepted closed.output.sink = Sink.accepted sink ++ bytes ∧
        Document.parse bytes = .ok d ∧
        ∀ key, ∃ chunks, d.split? key = some chunks ∧
          options.SplitInto (((Ledger.new registry).performAll ops).2.points key) chunks := by
  have hactive := active_of_close hclose
  obtain ⟨runs, hgreedy⟩ := (Greedy.start hstart).performAll hops hunpressed hactive
  obtain ⟨-, -, new, w₁, hdrains, hfrom⟩ := hgreedy.holds.close_drains.of_ok hclose
  obtain ⟨d, hd, hfooter, hlocated⟩ := hfrom.sealed.parse
  refine ⟨((start_ok hstart).performAll hactive).1, _, d, hfrom.took, hd, ?_⟩
  intro key
  refine ⟨_, hfrom.sealed.split?_eq hfooter hlocated key, ?_⟩
  rw [hfrom.holds.points_eq hfrom.empty key]
  exact hgreedy.split hdrains key

end Writer

section

attribute [local instance] sampleLogarithm

/-- Points of three series, some in records, of which one is refused. -/
def sampleTurn : List Operation := [
  .write ⟨"root.a", "t"⟩ 1 (.int32 7),
  .write ⟨"root.b", "v"⟩ (-5) (.double 0x400921FB54442D18),
  .writeRecord "root.a" 2 [("t", .int32 (-3)), ("n", .text "TsFile")],
  .write ⟨"root.a", "t"⟩ 2 (.int32 8),
  .write ⟨"root.a", "t"⟩ 9 (.int32 1)]

/-- In the sample no pressure has to be relieved, and the file is closed in the end. -/
theorem sample_unpressed :
    Writer.closes MemorySink.unlimited sampleRegistry sampleOptions sampleTurn = true ∧
      (Writer.start MemorySink.unlimited sampleRegistry sampleOptions).toOption.all
        (fun w => w.unpressed sampleTurn) = true := by
  decide +kernel

/-- Three points of one series, two in a chunk. -/
theorem close_splits_sample : ∃ opened closed : Writer MemorySink,
    Writer.start MemorySink.unlimited sampleRegistry sampleOptions = .ok opened ∧
      sampleTurn.all Operation.offers = true ∧ opened.unpressed sampleTurn = true ∧
      Writer.close (opened.after sampleTurn) = .ok () closed ∧
      ∃ bytes d chunks,
        Sink.accepted closed.output.sink = Sink.accepted MemorySink.unlimited ++ bytes ∧
        Document.parse bytes = .ok d ∧ d.split? ⟨"root.a", "t"⟩ = some chunks ∧
        chunks.length = 2 := by
  obtain ⟨hcloses, hunpressed⟩ := sample_unpressed
  obtain ⟨opened, closed, hstart, hclose⟩ := Writer.exists_of_closes hcloses
  rw [hstart] at hunpressed
  obtain ⟨-, bytes, d, htook, hd, hsplits⟩ := Writer.close_splits hstart rfl hunpressed hclose
  obtain ⟨chunks, hsplit, hinto⟩ := hsplits ⟨"root.a", "t"⟩
  have hlength : (((Ledger.new sampleRegistry).performAll sampleTurn).2.points
      ⟨"root.a", "t"⟩).length = 3 := by
    decide +kernel
  have hcounts := hinto.even (.of_costs (by decide) (by decide +kernel))
  rw [hlength] at hcounts
  exact ⟨opened, closed, hstart, rfl, hunpressed, hclose, bytes, d, chunks, htook, hd, hsplit,
    hcounts.1⟩

end

end SeriesFile
