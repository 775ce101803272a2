import SeriesFile.Proofs.Refusals

/-!
# Limits

After every call that stores points or flushes, no more is buffered than the options allow, and no
buffer that has points has reached a limit of a chunk. A chunk reaches a limit with its last point
at the earliest, so it has no more points than allowed, or a single one (`bounded`). This also holds
if a limit is zero: then every point becomes a chunk of its own.

Between calls no buffer is due (`Steady`). While a record is stored some are, and for a while
several at once; but only buffers whose last point is that of the record, so they take no other
before they are written (`Buffer.Portioned`).
-/

namespace SeriesFile

/-! ### Portions -/

namespace Options

variable {o : Options} {points : List Point}

/-- Points that have not reached a limit of a chunk. -/
structure Below (o : Options) (points : List Point) : Prop where
  length : points.length < o.maxChunkPoints
  costs : Buffer.costs points < o.maxChunkBytes

/-- Points that, if there are several, had not reached a limit before the last one. -/
def Fits (o : Options) (points : List Point) : Prop :=
  2 ≤ points.length → o.Below points.dropLast

/-- Points of a chunk. -/
structure Portion (o : Options) (points : List Point) : Prop where
  least : 1 ≤ points.length
  most : points.length ≤ max 1 o.maxChunkPoints
  fits : o.Fits points

/-- Points below the limits had not reached one before the last. -/
theorem Fits.of_below (h : o.Below points) : o.Fits points := by
  intro hlength
  have hne : points ≠ [] := List.ne_nil_of_length_pos (Nat.lt_of_succ_lt hlength)
  have hcosts := h.costs
  rw [← List.dropLast_append_getLast hne, Buffer.costs_append] at hcosts
  refine ⟨?_, Nat.lt_of_le_of_lt (Nat.le_add_right _ _) hcosts⟩
  rw [List.length_dropLast]
  exact Nat.lt_of_le_of_lt (Nat.sub_le _ 1) h.length

/-- One more point may be added to points that have not reached a limit. -/
theorem Fits.concat (h : points ≠ [] → o.Below points) (p : Point) : o.Fits (points ++ [p]) := by
  intro hlength
  rw [List.dropLast_concat]
  apply h
  rintro rfl
  contradiction

/-- Points that had not reached a limit before the last are a portion, if there are any. -/
theorem Fits.portion (h : o.Fits points) (hne : points ≠ []) : o.Portion points := by
  refine ⟨List.length_pos_iff.2 hne, ?_, h⟩
  by_cases hlength : 2 ≤ points.length
  · have hbelow := (h hlength).length
    rw [List.length_dropLast] at hbelow
    omega
  · omega

end Options

namespace Buffer

variable {o : Options} {time : Int64} {b b' : Buffer}

/-- A buffer that counts its points, has no more of them than a chunk may have, and is full only if
the last one has a certain time. -/
structure Portioned (o : Options) (time : Int64) (b : Buffer) : Prop where
  length : b.length = b.points.length
  rawBytes : b.rawBytes = costs b.points
  fits : o.Fits b.points
  full : b.points ≠ [] → b.isFull o = true → b.lastTime = some time

/-- A buffer that is not full has reached no limit. -/
theorem lt_of_not_isFull (h : b.isFull o = false) :
    b.length < o.maxChunkPoints ∧ b.rawBytes < o.maxChunkBytes := by
  simpa [isFull] using h

/-- In a portioned buffer that is not full the points have reached no limit. -/
theorem Portioned.below (h : b.Portioned o time) (hfull : b.isFull o = false) :
    o.Below b.points := by
  obtain ⟨hlength, hbytes⟩ := lt_of_not_isFull hfull
  exact ⟨h.length ▸ hlength, h.rawBytes ▸ hbytes⟩

/-- A buffer that takes a point of that time is not full before. -/
theorem Portioned.append (h : b.Portioned o time) {value : Value}
    (points : b'.points = b.points ++ [⟨time, value⟩]) (length : b'.length = b.length + 1)
    (rawBytes : b'.rawBytes = b.rawBytes + cost value) (earlier : b.lastTime ≠ some time)
    (last : b'.lastTime = some time) : b'.Portioned o time where
  length := by rw [length, points, List.length_append, h.length]; rfl
  rawBytes := by rw [rawBytes, points, costs_append, h.rawBytes]; rfl
  fits := by
    rw [points]
    refine .concat (fun hne => h.below ?_) _
    -- If it were full, its last point would have this time already.
    by_contra hfull
    exact earlier (h.full hne (by simpa using hfull))
  full _ _ := last

end Buffer

namespace Writer

variable {σ : Type} {w w₁ w' : Writer σ} {key : SeriesKey} {time : Int64}

/-- All buffers are portioned. -/
def Portioned (time : Int64) (w : Writer σ) : Prop :=
  ∀ key b, w.buffers.find? key = some b → b.Portioned w.options time

/-- A chunk of a series is due. -/
def Due (w : Writer σ) (key : SeriesKey) : Prop :=
  ∃ b, w.buffers.find? key = some b ∧ b.isEmpty = false ∧ b.isFull w.options = true

/-- A point goes to one buffer and leaves all of them portioned. -/
theorem Portioned.buffered {value : Value} {full : Bool} (h : w.Portioned time)
    (hb : Buffered key ⟨time, value⟩ full w w') : w'.Portioned time := by
  obtain ⟨found, points, length, rawBytes, earlier, last⟩ := hb
  intro k other hother
  rw [SeriesTable.find?_insert] at hother
  split at hother
  · obtain rfl := Option.some.inj hother
    exact (h key _ found).append points length rawBytes earlier last
  · exact h k other hother

/-- Points of one time leave all buffers portioned. -/
theorem Portioned.allBuffered {full : List SeriesKey} (h : w.Portioned time)
    (hall : AllBuffered time full w w') : w'.Portioned time := by
  induction hall with
  | nil _ => exact h
  | cons first _ ih => exact ih (h.buffered first)

/-- A point does not change the options. -/
theorem Buffered.options_eq {p : Point} {full : Bool} (h : Buffered key p full w w') :
    w'.options = w.options := by
  cases h
  rfl

/-- Nor do several points. -/
theorem AllBuffered.options_eq {full : List SeriesKey} (h : AllBuffered time full w w') :
    w'.options = w.options := by
  induction h with
  | nil _ => rfl
  | cons first _ ih => exact ih.trans first.options_eq

/-- A point makes due at most the chunk of its own series, if the buffer is full with it. -/
theorem Buffered.due {p : Point} {full : Bool} (h : Buffered key p full w w') {k : SeriesKey}
    (hk : w'.Due k) : k = key ∧ full = true ∨ w.Due k := by
  obtain ⟨b, hb, hfilled, hfull⟩ := hk
  obtain ⟨found, _⟩ := h
  rw [SeriesTable.find?_insert] at hb
  split at hb
  · rename_i hkey
    obtain rfl := Option.some.inj hb
    exact .inl ⟨hkey.symm, hfull⟩
  · exact .inr ⟨b, hb, hfilled, hfull⟩

/-- What is due after points were buffered is what they made full, or was due before. -/
theorem AllBuffered.due {full : List SeriesKey} (h : AllBuffered time full w w') {k : SeriesKey}
    (hk : w'.Due k) : k ∈ full ∨ w.Due k := by
  induction h with
  | nil _ => exact .inr hk
  | @cons key value filled others w w₁ w' first _ ih =>
    -- Due because of one of the others, or because of the first point.
    rcases ih hk with hmem | hdue
    · left
      split
      · exact .tail _ hmem
      · exact hmem
    · rcases first.due hdue with ⟨rfl, rfl⟩ | hdue
      · exact .inl (.head _)
      · exact .inr hdue

/-- What is found of a buffer that took a point. -/
theorem Buffered.exists_buffer {value : Value} {full : Bool}
    (h : Buffered key ⟨time, value⟩ full w w') :
    ∃ b, w'.buffers.find? key = some b ∧ b.isEmpty = false ∧ b.isFull w'.options = full ∧
      b.lastTime = some time := by
  obtain @⟨_, b, b', found, -, length, -, -, last⟩ := h
  refine ⟨b', by rw [SeriesTable.find?_insert, if_pos rfl], ?_, rfl, last⟩
  by_contra hempty
  rw [Buffer.isEmpty, Bool.not_eq_false, List.isEmpty_iff] at hempty
  -- A buffer that took a point has one.
  rw [Buffer.length, hempty] at length
  contradiction

/-- Of the points of one time a buffer takes one only, and is then left alone. -/
theorem AllBuffered.find?_of_lastTime {full : List SeriesKey} (h : AllBuffered time full w w')
    {b : Buffer} (hb : w.buffers.find? key = some b) (hlast : b.lastTime = some time) :
    w'.buffers.find? key = some b := by
  induction h with
  | nil _ => exact hb
  | cons first _ ih =>
    apply ih
    obtain ⟨found, -, -, -, earlier⟩ := first
    rw [SeriesTable.find?_insert, if_neg, hb]
    -- A point for this series would not be later than the last one.
    rintro rfl
    obtain rfl := Option.some.inj (hb.symm.trans found)
    exact earlier hlast

/-- What points of one time made full is due after all of them were buffered. -/
theorem AllBuffered.due_of_mem {full : List SeriesKey} (h : AllBuffered time full w w')
    (hkey : key ∈ full) : w'.Due key := by
  induction h with
  | nil _ => contradiction
  | @cons k value filled others w w₁ w' first rest ih =>
    cases filled with
    | false => exact ih hkey
    | true =>
      rcases List.mem_cons.1 hkey with rfl | hkey
      · obtain ⟨b, hb, hfilled, hfull, hlast⟩ := first.exists_buffer
        refine ⟨b, rest.find?_of_lastTime hb hlast, hfilled, ?_⟩
        rw [rest.options_eq]
        exact hfull
      · exact ih hkey

/-! ### Between calls -/

variable [Sink σ] [Compressor] {o : Opening σ} {runs : List Run} {ledger ledger' : Ledger}

/-- An open writer between calls: its chunks are portions, no chunk is due, and the bound is met. -/
structure Steady (o : Opening σ) (runs : List Run) (ledger : Ledger) (w : Writer σ) : Prop where
  holds : Holds o .active runs ledger w
  fits : ∀ run ∈ runs, o.options.Fits run.points
  notDue : ∀ key, ¬w.Due key
  bound : w.bufferedBytes ≤ o.options.maxBufferedBytes

namespace Steady

/-- A new writer buffers nothing, so nothing is due. -/
theorem start {sink : σ} {registry : Registry} {options : Options}
    (h : start sink registry options = .ok w) :
    Steady ⟨sink, registry, options⟩ [] (Ledger.new registry) w := by
  obtain ⟨hholds, hempty⟩ := start_holds h
  refine ⟨hholds, fun _ hr => (List.not_mem_nil hr).elim, ?_, ?_⟩
  · rintro key ⟨b, hb, hfilled, -⟩
    exact hempty key ⟨b, hb, hfilled⟩
  · rw [hholds.bufferedBytes_eq_zero hempty]
    exact Nat.zero_le _

/-- As nothing is due, what is buffered has reached no limit. -/
theorem not_full (h : Steady o runs ledger w) {key : SeriesKey} {b : Buffer}
    (hb : w.buffers.find? key = some b) (hfilled : b.isEmpty = false) :
    b.isFull w.options = false := by
  by_contra hfull
  exact h.notDue key ⟨b, hb, hfilled, by simpa using hfull⟩

/-- A point of any time may be added to any buffer. -/
theorem portioned (h : Steady o runs ledger w) (time : Int64) : w.Portioned time := by
  intro key b hb
  obtain ⟨_, _, -, -, hkeeps⟩ := h.holds.keeps_buffer hb
  -- Nothing is due, so a buffer that has points is not full.
  have hnotFull (hne : b.points ≠ []) : b.isFull w.options = false := by
    apply h.not_full hb
    by_contra hempty
    exact hne (Buffer.points_of_isEmpty (by simpa using hempty))
  refine ⟨hkeeps.length_points.symm, hkeeps.counted, ?_, fun hne hfull => ?_⟩
  · intro hlength
    have hne : b.points ≠ [] := List.ne_nil_of_length_pos (Nat.lt_of_succ_lt hlength)
    obtain ⟨hlt, hlt'⟩ := Buffer.lt_of_not_isFull (hnotFull hne)
    exact Options.Fits.of_below ⟨hkeeps.length_points ▸ hlt, hkeeps.counted ▸ hlt'⟩ hlength
  · rw [hnotFull hne] at hfull
    contradiction

/-- Chunks of portioned buffers are portions. -/
theorem fits_drained {new : List Run} (h : Steady o runs ledger w) (hp : w₁.Portioned time)
    (hoptions : w₁.options = w.options) (hdrains : Drains w₁ new w') :
    ∀ run ∈ runs ++ new, o.options.Fits run.points := by
  intro run hr
  rcases List.mem_append.1 hr with hr | hr
  · exact h.fits run hr
  · obtain ⟨b, hb, -, hpoints⟩ := hdrains.exists_buffer hr
    rw [hpoints, ← h.holds.options_eq, ← hoptions]
    exact (hp _ b hb).fits

/-- After points were stored nothing is due again, as what they made full was drained. -/
theorem drained {full : List SeriesKey} {new : List Run} (h : Steady o runs ledger w)
    (hall : AllBuffered time full w w₁) (hdrains : Drains w₁ new w')
    (h' : Holds o .active (runs ++ new) ledger' w') (hempty : ∀ key ∈ full, ¬w'.Filled key)
    (hbound : w'.bufferedBytes ≤ o.options.maxBufferedBytes) :
    Steady o (runs ++ new) ledger' w' := by
  have hp := (h.portioned time).allBuffered hall
  refine ⟨h', h.fits_drained hp hall.options_eq hdrains, ?_, hbound⟩
  rintro key ⟨b, hb, hfilled, hfull⟩
  rw [hdrains.options_eq] at hfull
  -- A buffer that was not drained is as it was when the points had been buffered.
  rcases hall.due ⟨b, hdrains.find?_of_filled hb hfilled, hfilled, hfull⟩ with hmem | hdue
  · exact hempty key hmem ⟨b, hb, hfilled⟩
  · exact h.notDue key hdue

/-- What a call stores leaves a steady writer. -/
theorem stored (h : Steady o runs ledger w) (hs : Stored o runs ledger' time w w') :
    ∃ runs', Steady o runs' ledger' w' := by
  obtain ⟨full, w₁, hall, ⟨new, hdrains, h'⟩, hempty, hbound⟩ := hs
  exact ⟨runs ++ new, h.drained hall hdrains h' hempty hbound⟩

/-- A flush leaves a steady writer without points. -/
theorem flushed (h : Steady o runs ledger w) (hd : Drained o .active runs ledger w w')
    (hempty : ∀ key, ¬w'.Filled key) : ∃ runs', Steady o runs' ledger w' := by
  obtain ⟨new, hdrains, h'⟩ := hd
  refine ⟨runs ++ new, h', h.fits_drained (h.portioned 0) rfl hdrains, ?_, ?_⟩
  · rintro key ⟨b, hb, hfilled, -⟩
    exact hempty key ⟨b, hb, hfilled⟩
  · rw [h'.bufferedBytes_eq_zero hempty]
    exact Nat.zero_le _

end Steady

end Writer

/-! ### Operations -/

/-- Whether an operation stores points or flushes them. -/
def Operation.stores : Operation → Bool
  | write .. | writeRecord .. | flush => true
  | close | abort | drop => false

namespace Writer

variable {σ : Type} [Sink σ] [Compressor] [Logarithm] {o : Opening σ} {runs : List Run}
  {ledger ledger' : Ledger} {w : Writer σ} {op : Operation}

/-- After an operation a writer is steady again, or it is finished; and in the latter case, if it
was to store points, it answers that it failed. -/
def Steadies (o : Opening σ) (w : Writer σ) (op : Operation) : Prop :=
  (∃ runs ledger, Steady o runs ledger (w.perform op).2) ∨
    (w.perform op).2.state.isTerminal = true ∧ (op.stores = true → (w.perform op).1 ≠ .ok ())

/-- An operation that leaves a steady writer, or loses it. -/
theorem steadies_of_ends
    (h : Ends (action op) w (fun _ w' => ∃ runs, Steady o runs ledger w') (Lost o)) :
    Steadies o w op := by
  rcases h.perform with ⟨-, runs, h'⟩ | ⟨fault, hanswer, hlost⟩
  · exact .inl ⟨runs, ledger, h'⟩
  · refine .inr ⟨isTerminal_of_aborted hlost.aborted, fun _ => ?_⟩
    rw [hanswer]
    exact nofun

/-- A finished writer stores nothing. -/
theorem steadies_of_terminal (h : w.state.isTerminal = true) : Steadies o w op := by
  rw [Steadies, perform_late h]
  refine .inr ⟨h, fun hop => ?_⟩
  cases op with
  | write | writeRecord | flush => exact nofun
  | close | abort | drop => contradiction

namespace Steady

/-- A refusal changes nothing. -/
theorem steadies_of_refused (h : Steady o runs ledger w) {fault : Fault}
    (hw : action op w = .error fault w) : Steadies o w op := by
  rw [Steadies, perform_error hw]
  exact .inl ⟨runs, ledger, h⟩

/-- Whatever a steady writer is asked for, it is steady again or finished. -/
theorem steadies (h : Steady o runs ledger w) (op : Operation) : Steadies o w op := by
  have hkeeps : Keeps o .active ledger w := ⟨runs, h.holds⟩
  cases op with
  | write key time value =>
    cases hl : ledger.accept key time value with
    | error fault => exact h.steadies_of_refused (hkeeps.write_refused hl)
    | ok ledger' =>
      exact steadies_of_ends ((h.holds.write_ends hl).mono (fun _ _ hs => h.stored hs)
        fun _ hs => hs)
  | writeRecord device time fields =>
    cases hl : ledger.acceptRecord device time fields with
    | error fault => exact h.steadies_of_refused (hkeeps.writeRecord_refused hl)
    | ok ledger' =>
      exact steadies_of_ends ((h.holds.writeRecord_ends hl).mono (fun _ _ hs => h.stored hs)
        fun _ hs => hs)
  | flush =>
    exact steadies_of_ends (h.holds.flush_ends.mono (fun _ _ hs => h.flushed hs.1 hs.2)
      fun _ hs => hs)
  | close =>
    refine .inr ⟨?_, nofun⟩
    -- A close keeps nothing open, whether it succeeds or fails.
    cases hkeeps.outcome .close with
    | kept incomplete => contradiction
    | lost _ lost => exact isTerminal_of_aborted lost.aborted
    | finished _ _ terminal => exact terminal
  | abort =>
    have hopen : w.state.isTerminal = false := by
      rw [h.holds.state_eq]
      rfl
    exact .inr ⟨isTerminal_of_aborted (state_abort hopen), nofun⟩
  | drop => exact .inr ⟨isTerminal_of_aborted hkeeps.lost_drop.aborted, nofun⟩

/-- Whatever is asked of a steady writer, it is steady or finished afterwards. -/
theorem performAll (h : Steady o runs ledger w) (ops : List Operation) :
    (∃ runs' ledger', Steady o runs' ledger' (w.after ops)) ∨
      (w.after ops).state.isTerminal = true := by
  induction ops generalizing w runs ledger with
  | nil => exact .inl ⟨runs, ledger, h⟩
  | cons op ops ih =>
    rw [after_cons]
    rcases h.steadies op with ⟨runs', ledger', h'⟩ | ⟨hterminal, -⟩
    · exact ih h'
    · exact .inr (by rwa [after_terminal hterminal])

end Steady

/-! ### The limits -/

/-- No more is buffered than the options allow, no buffer with points has reached a limit of a
chunk, and the chunks in the file, as many as were counted, are portions. -/
structure Bounded (sink : σ) (options : Options) (w : Writer σ) : Prop where
  bufferedBytes : w.bufferedBytes ≤ options.maxBufferedBytes
  buffers : ∀ key b, w.buffers.find? key = some b → b.isEmpty = false →
    options.Below b.points ∧ b.rawBytes < options.maxChunkBytes
  chunks : w.registry.NamesFit → ∃ bytes,
    Sink.accepted w.output.sink = Sink.accepted sink ++ bytes ∧
      (BodyItem.chunksOf bytes).length = w.chunksFlushed ∧
      ∀ chunk ∈ BodyItem.chunksOf bytes, ∃ points, chunk.points = .ok points ∧
        options.Portion points

omit [Logarithm] in
/-- The limits are read off a steady writer. -/
theorem Steady.limits (h : Steady o runs ledger w) : Bounded o.sink o.options w where
  bufferedBytes := h.bound
  buffers key b hb hfilled := by
    have hfull := h.not_full hb hfilled
    rw [← h.holds.options_eq]
    exact ⟨(h.portioned 0 key b hb).below hfull, (Buffer.lt_of_not_isFull hfull).2⟩
  chunks hn := by
    rw [h.holds.registry_eq] at hn
    refine ⟨_, h.holds.wrote.took, ?_⟩
    -- The chunks in the file are those of the runs, and a run is a portion.
    rw [Run.chunksOf_layout (h.holds.sound hn), List.length_map, h.holds.tallies.chunks]
    refine ⟨rfl, fun chunk hc => ?_⟩
    obtain ⟨run, hr, rfl⟩ := List.mem_map.1 hc
    exact ⟨_, run.points_eq, (h.fits run hr).portion run.points_ne_nil⟩

/-- Whenever points were stored or flushed, the limits are kept, under either policy. -/
theorem bounded {sink : σ} {registry : Registry} {options : Options} {opened : Writer σ}
    (hstart : start sink registry options = .ok opened) (ops : List Operation) (hop : op.stores = true)
    (hok : ((opened.after ops).perform op).1 = .ok ()) :
    Bounded sink options ((opened.after ops).perform op).2 := by
  -- A writer that is finished could not have stored anything.
  have hsteadies : Steadies ⟨sink, registry, options⟩ (opened.after ops) op := by
    rcases (Steady.start hstart).performAll ops with ⟨runs, ledger, h⟩ | hterminal
    · exact h.steadies op
    · exact steadies_of_terminal hterminal
  rcases hsteadies with ⟨runs, ledger, h⟩ | ⟨-, hfailed⟩
  · exact h.limits
  · exact absurd hok (hfailed hop)

end Writer

section

attribute [local instance] sampleLogarithm

/-- Nothing may be buffered, not even a single point. -/
def sampleUnbuffered : Options :=
  { maxChunkPoints := 0, maxChunkBytes := 0, maxBufferedBytes := 0 }

/-- A record of which every field fills a chunk. -/
def sampleRecord : Operation :=
  .writeRecord "root.a" 2 [("t", .int32 (-3)), ("n", .text "TsFile")]

/-- With all limits zero a point and a record are stored. -/
theorem sample_unbuffered :
    Writer.answers? MemorySink.unlimited sampleRegistry sampleUnbuffered
        [.write ⟨"root.a", "t"⟩ 1 (.int32 7), sampleRecord] =
      some [.ok (), .ok ()] := by
  decide +kernel

/-- Even then nothing is left in the buffers, and each chunk is a single point. -/
theorem bounded_sample : ∃ opened : Writer MemorySink,
    Writer.start MemorySink.unlimited sampleRegistry sampleUnbuffered = .ok opened ∧
      sampleRecord.stores = true ∧
      ((opened.after [.write ⟨"root.a", "t"⟩ 1 (.int32 7)]).perform sampleRecord).1 = .ok () ∧
      Writer.Bounded MemorySink.unlimited sampleUnbuffered
        ((opened.after [.write ⟨"root.a", "t"⟩ 1 (.int32 7)]).perform sampleRecord).2 := by
  obtain ⟨opened, hstart, hanswers⟩ := Writer.exists_of_answers? sample_unbuffered
  obtain ⟨-, hanswers⟩ := List.cons.inj hanswers
  obtain ⟨hrecord, -⟩ := List.cons.inj hanswers
  exact ⟨opened, hstart, rfl, hrecord, Writer.bounded hstart _ rfl hrecord⟩

end

end SeriesFile
