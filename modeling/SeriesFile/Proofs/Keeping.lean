import SeriesFile.Proofs.Actions
import SeriesFile.Proofs.Draining
import SeriesFile.Proofs.Index

/-!
# What an open writer keeps

As long as a writer is open, its sink has taken the head of a file and the body that some runs make;
its index lists those runs; together with what is buffered they hold every point that was accepted;
and its tallies count them (`Holds`). Writing chunks keeps this, whenever it is done: buffers are
drained into further runs (`Holds.flushSeries_ends`). Where it fails, the writer is given up, and
its file ends somewhere in the body (`Torn`).

Relieving pressure meets the bound (`Holds.relievePressure_ends`): either it ends because the bound
is met, or all buffers are empty, and then nothing is counted.
-/

namespace SeriesFile

/-- What a writer is opened with. -/
structure Opening (σ : Type) where
  sink : σ
  registry : Registry
  options : Options

namespace Writer

variable {σ : Type} [Sink σ] {o : Opening σ} {w : Writer σ}

/-- The bytes that the sink took since a writer was opened on it. -/
def Took (o : Opening σ) (bytes : Bytes) (w : Writer σ) : Prop :=
  Sink.accepted w.output.sink = Sink.accepted o.sink ++ bytes

/-- The stream of a writer took some bytes since the writer was opened. -/
def Wrote (o : Opening σ) (bytes : Bytes) (w : Writer σ) : Prop :=
  ∃ stream, w.output = .attached stream ∧ (Stream.start o.sink).Extends stream bytes

/-- What the stream took the sink has. -/
theorem Wrote.took {bytes : Bytes} (h : w.Wrote o bytes) : w.Took o bytes := by
  obtain ⟨stream, ho, he⟩ := h
  rw [Took, ho]
  exact he.accepted

/-- What the sink took does not make a file. -/
structure Torn (o : Opening σ) (w : Writer σ) : Prop where
  notClosed : w.state ≠ .closed
  unfinished : ∃ bytes, w.Took o bytes ∧ (o.registry.NamesFit → Unfinished bytes)

/-- The writer was given up before its file was complete. -/
structure Lost (o : Opening σ) (w : Writer σ) : Prop extends Torn o w where
  aborted : w.state = .aborted

/-! ### Giving up -/

omit [Sink σ] in
/-- A writer that was given up is retired. -/
theorem isTerminal_of_aborted (h : w.state = .aborted) : w.state.isTerminal = true := by
  rw [h]
  rfl

/-- Giving up a writer takes nothing more into its sink. -/
theorem accepted_abort (w : Writer σ) :
    Sink.accepted w.abort.output.sink = Sink.accepted w.output.sink := by
  unfold abort release
  split
  · rfl
  · cases w.output with
    | attached stream => exact Sink.accepted_flush stream.sink
    | released sink => rfl

/-- Giving up a file that is not complete leaves it so. -/
theorem Torn.abort (h : Torn o w) : Lost o w.abort := by
  obtain ⟨hstate, bytes, htook, hbytes⟩ := h
  have haborted : w.abort.state = .aborted := by
    unfold Writer.abort
    split
    · rename_i hterminal
      cases hs : w.state with
      | aborted => rfl
      | closed => exact absurd hs hstate
      | active | closing => simp [hs, WriterState.isTerminal] at hterminal
    · rfl
  refine ⟨⟨by rw [haborted]; exact nofun, bytes, ?_, hbytes⟩, haborted⟩
  rw [Took, accepted_abort]
  exact htook

/-- What is torn when an action fails is lost with it. -/
theorem Ends.orAbort {α : Type} {action : Action σ α} {Q : α → Writer σ → Prop}
    (h : Ends action w Q (Torn o)) : Ends (orAbort action) w Q (Lost o) := by
  cases hw : action w with
  | ok a w' =>
    have horAbort : Writer.orAbort action w = .ok a w' := by simp only [Writer.orAbort, hw]
    exact .ok horAbort (h.of_ok hw)
  | error fault w' =>
    have horAbort : Writer.orAbort action w = .error fault w'.abort := by
      simp only [Writer.orAbort, hw]
    exact .error horAbort (h.of_error hw).abort

/-- If it succeeds, nothing was given up. -/
theorem of_orAbort_ok {α : Type} {action : Action σ α} {a : α}
    {w' : Writer σ} (hw : orAbort action w = .ok a w') : action w = .ok a w' := by
  unfold orAbort at hw
  split at hw
  · rename_i haction
    rw [haction, hw]
  · contradiction

/-! ### Things of the body -/

/-- What a writer puts into its sink is taken to the end, or else its front is. -/
theorem put_ends {bytes more : Bytes} (h : w.Wrote o bytes) :
    Ends (put more) w
      (fun _ w' => ∃ stream,
        w' = { w with output := .attached stream } ∧ w'.Wrote o (bytes ++ more))
      (fun w' => w'.state = w.state ∧ ∃ front, front <+: more ∧ front ≠ more ∧
        w'.Wrote o (bytes ++ front)) := by
  obtain ⟨stream, ho, he⟩ := h
  -- The stream answers, and the writer passes this on.
  rcases hput : stream.put more with ⟨fault | done, after⟩
  · have hw : put more w = .error fault { w with output := .attached after } := by
      simp only [put, ho, hput]
    obtain ⟨front, hp, hne, hx⟩ := Stream.put_error hput
    exact .error hw ⟨rfl, front, hp, hne, after, rfl, he.trans hx⟩
  · have hw : put more w = .ok () { w with output := .attached after } := by
      simp only [put, ho, hput]
    exact .ok hw ⟨after, rfl, after, rfl, he.trans (Stream.put_ok hput)⟩

/-- A writer that is open has written the head of a file and some things of a body, in which the
group of `device` was begun last. -/
structure Writes (o : Opening σ) (state : WriterState) (items : List BodyItem)
    (device : Option String) (w : Writer σ) : Prop where
  registry_eq : w.registry = o.registry
  options_eq : w.options = o.options
  state_eq : w.state = state
  device_eq : w.device = device
  open_ : state.isTerminal = false
  wrote : w.Wrote o (Frame.head ++ BodyItem.writeAll items)
  sound : o.registry.NamesFit → ∀ item ∈ items, item.Sound

namespace Writes

variable {state : WriterState} {items : List BodyItem} {device : Option String}

/-- A writer that is writing is not closed. -/
theorem not_closed (h : Writes o state items device w) : w.state ≠ .closed := by
  intro heq
  have hopen := h.open_
  rw [← h.state_eq, heq] at hopen
  contradiction

/-- A file that ends in the middle of the next thing of its body is not complete. -/
theorem torn (h : Writes o state items device w) (item : BodyItem) {front : Bytes} {w' : Writer σ}
    (hw : w'.Wrote o (Frame.head ++ BodyItem.writeAll items ++ front)) (hf : front <+: item.write)
    (hsound : o.registry.NamesFit → item.Sound) (hstate : w'.state = w.state) : Torn o w' := by
  refine ⟨by rw [hstate]; exact h.not_closed, _, hw.took, ?_⟩
  intro hn
  have hitems : ∀ other ∈ items ++ [item], other.Sound := by
    intro other ho
    rcases List.mem_append.1 ho with ho | ho
    · exact h.sound hn other ho
    · obtain rfl := List.mem_singleton.1 ho
      exact hsound hn
  apply Unfinished.of_body hitems
  rw [BodyItem.writeAll_append, ← List.append_assoc, BodyItem.writeAll_cons, BodyItem.writeAll_nil,
    List.append_nil]
  exact (List.prefix_append_right_inj _).2 hf

/-- A file that ends with its body is not complete. -/
theorem torn_body (h : Writes o state items device w) {w' : Writer σ}
    (hstate : w'.state = w.state) (houtput : w'.output = w.output) : Torn o w' := by
  refine ⟨by rw [hstate]; exact h.not_closed, Frame.head ++ BodyItem.writeAll items, ?_, fun hn =>
    Unfinished.of_body (h.sound hn) List.prefix_rfl⟩
  rw [Took, houtput]
  exact h.wrote.took

/-- One thing more. -/
theorem append (h : Writes o state items device w) (item : BodyItem) {w' : Writer σ}
    (hw : w'.Wrote o (Frame.head ++ BodyItem.writeAll items ++ item.write))
    (hsound : o.registry.NamesFit → item.Sound) (hregistry : w'.registry = w.registry)
    (hoptions : w'.options = w.options) (hstate : w'.state = w.state) :
    Writes o state (items ++ [item]) w'.device w' where
  registry_eq := hregistry.trans h.registry_eq
  options_eq := hoptions.trans h.options_eq
  state_eq := hstate.trans h.state_eq
  device_eq := rfl
  open_ := h.open_
  wrote := by
    rw [BodyItem.writeAll_append, ← List.append_assoc, BodyItem.writeAll_cons,
      BodyItem.writeAll_nil, List.append_nil]
    exact hw
  sound hn other ho := by
    rcases List.mem_append.1 ho with ho | ho
    · exact h.sound hn other ho
    · obtain rfl := List.mem_singleton.1 ho
      exact hsound hn

/-- The group of a device is begun unless it was begun last. -/
theorem beginGroup_ends (h : Writes o state items device w) {name : String}
    (hname : o.registry.NamesFit → name.utf8ByteSize < 2 ^ 64) :
    Ends (beginGroup name) w
      (fun _ w' => Writes o state (items ++ Run.opening device name) (some name) w' ∧
        ∃ output device, w' = { w with output, device })
      (Torn o) := by
  apply Ends.get
  rw [h.device_eq, Run.opening]
  by_cases hdevice : device = some name
  · -- The group of this device was begun last.
    rw [if_neg (not_not_intro hdevice), if_pos hdevice, List.append_nil, ← hdevice]
    exact Ends.pure ⟨h, _, _, rfl⟩
  · rw [if_pos hdevice, if_neg hdevice]
    refine (put_ends h.wrote).mono (fun _ w' hw => hw) (fun w' hw => ?_) |>.bind fun _ w' hw => ?_
    · obtain ⟨hstate, front, hp, -, hw⟩ := hw
      exact h.torn (.group name) hw hp hname hstate
    · obtain ⟨stream, rfl, hw⟩ := hw
      have hbegun : Wrote o (Frame.head ++ BodyItem.writeAll items ++ (BodyItem.group name).write)
          { w with output := .attached stream, device := some name } := hw
      exact ⟨h.append (.group name) hbegun hname rfl rfl rfl, _, _, rfl⟩

variable [Compressor]

/-- The points of a buffer become a run, or else the file ends in the middle of its chunk. -/
theorem flushBuffer_ends (h : Writes o state items device w) {key : SeriesKey} {b : Buffer}
    {schema : Schema} {flushed accepted : List Point} (hb : b.Keeps schema flushed accepted)
    (hpoints : b.isEmpty = false)
    (hname : o.registry.NamesFit → key.measurement.utf8ByteSize < 2 ^ 64) :
    Ends (flushBuffer key b) w
      (fun entry w' => ∃ run : Run, run.key = key ∧ run.schema = schema ∧
        run.times = b.times ∧ run.column = b.column ∧
        entry = some (Run.entry ((Frame.head ++ BodyItem.writeAll items).length, run)) ∧
        Writes o state (items ++ [.chunk run.chunk]) device w' ∧
        ∃ output, w' = { w with output, buffers := w.buffers.insert key b.emptied })
      (Torn o) := by
  obtain ⟨stream, ho, he⟩ := h.wrote
  have htimes : b.times ≠ [] := fun hnil => by simp [Buffer.isEmpty, hnil] at hpoints
  have htyped : b.column.dataType = b.schema.dataType := hb.typed.trans (by rw [hb.stored])
  rcases hput : stream.appendChunk key.measurement b.schema b.times b.column with
    ⟨fault | entry, after⟩
  · have hw : flushBuffer key b w = .error fault { w with
        output := .attached after
        buffers := w.buffers.insert key { b with phase := .accumulating } } := by
      simp only [flushBuffer, ho, Buffer.flush, hpoints, hput, Bool.false_eq_true, if_false]
    refine .error hw ?_
    -- Either there was no chunk to append, or the sink failed within it.
    rcases Stream.appendChunk_error hput with rfl | ⟨c, front, hbuild, hp, hx⟩
    · exact h.torn_body rfl ho.symm
    · refine h.torn (.chunk c) ⟨after, rfl, he.trans hx⟩ hp ?_ rfl
      intro hn
      exact Run.sound ⟨key, b.schema, b.times, b.column, c, htyped, hbuild⟩ (hname hn)
  cases entry with
  | none => exact absurd (Stream.appendChunk_none hput) (Chunk.build_ne_none htimes hb.parallel)
  | some entry =>
    have hw : flushBuffer key b w = .ok (some entry) { w with
        output := .attached after
        buffers := w.buffers.insert key b.emptied } := by
      simp only [flushBuffer, ho, Buffer.flush, hpoints, hput, Bool.false_eq_true, if_false]
    obtain ⟨c, hbuild, hx, rfl⟩ := Stream.appendChunk_ok hput
    let run : Run := ⟨key, b.schema, b.times, b.column, c, htyped, hbuild⟩
    have hwrote : Wrote o (Frame.head ++ BodyItem.writeAll items ++ (BodyItem.chunk c).write)
        { w with output := .attached after, buffers := w.buffers.insert key b.emptied } :=
      ⟨after, rfl, he.trans hx⟩
    -- The entry states where the chunk stands, which is where the body ended before.
    have hposition : stream.position = (Frame.head ++ BodyItem.writeAll items).length :=
      he.position.trans (Nat.zero_add _)
    refine .ok hw ⟨run, rfl, hb.stored, rfl, rfl, by rw [hposition]; rfl, ?_, _, rfl⟩
    rw [← h.device_eq]
    exact h.append (.chunk c) hwrote (fun hn => run.sound (hname hn)) rfl rfl rfl

end Writes

omit [Sink σ] in
/-- A chunk of a run is entered into the index. -/
theorem enter_ends [Compressor] {registry : Registry} {runs : List Run}
    (h : Indexed registry runs w.index) {run : Run}
    (hs : registry.find? run.key = some run.schema) {E : Writer σ → Prop} :
    Ends (enter run.key (Run.entry (run.nextPlace runs, run))) w
      (fun _ w' => ∃ index, w' = { w with index } ∧ Indexed registry (runs ++ [run]) index) E := by
  cases hfind : w.index.find? run.key with
  | none =>
    -- The first chunk of its series makes an entry.
    have hw : enter run.key (Run.entry (run.nextPlace runs, run)) w =
        .ok () { w with
          index := w.index.insert run.key
            (.single run.key (Run.entry (run.nextPlace runs, run))) } := by
      simp only [enter, hfind]
    exact .ok hw ⟨_, rfl, h.append_single hs hfind⟩
  | some e =>
    -- Any other one goes to the entry that is there.
    obtain ⟨e', hpush, hindexed⟩ := h.append_push hs hfind
    have hw : enter run.key (Run.entry (run.nextPlace runs, run)) w =
        .ok () { w with index := w.index.insert run.key e' } := by
      simp only [enter, hfind, hpush]
    exact .ok hw ⟨_, rfl, hindexed⟩

/-! ### Chunks -/

variable [Compressor]

/-- A writer that is open has written some runs; together with what is buffered they hold the
points of a ledger, and this is what the writer counts. -/
structure Holds (o : Opening σ) (state : WriterState) (runs : List Run) (ledger : Ledger)
    (w : Writer σ) : Prop
    extends Writes o state (Run.layout none runs) (Run.lastDevice none runs) w where
  indexed : Indexed o.registry runs w.index
  accounts : ∀ key, Accounted (o.registry.find? key) (w.buffers.find? key) (ledger.find? key)
    (Run.pointsOf key runs)
  tallies : Tallies runs w

/-- A writer that is open holds the points of a ledger, however they were split into runs. -/
def Keeps (o : Opening σ) (state : WriterState) (ledger : Ledger) (w : Writer σ) : Prop :=
  ∃ runs, Holds o state runs ledger w

/-- Some buffers of an open writer were drained into further runs, and it holds what it held. -/
def Drained (o : Opening σ) (state : WriterState) (runs : List Run) (ledger : Ledger)
    (w w' : Writer σ) : Prop :=
  ∃ new, Drains w new w' ∧ Holds o state (runs ++ new) ledger w'

/-- Without buffered points nothing is written. -/
theorem writeChunk_idle {stream : Stream σ} (ho : w.output = .attached stream) {key : SeriesKey}
    (h : ¬w.Filled key) : writeChunk key w = .ok () w := by
  have hget : (get : Action σ (Writer σ)) w = .ok w w := rfl
  rw [writeChunk, bind_ok hget]
  simp only [ho, Output.stream?, Option.isNone_some, Bool.false_eq_true, if_false]
  cases hb : w.buffers.find? key with
  | none => rfl
  | some b =>
    simp only [isEmpty_of_not_filled h hb, if_true]
    rfl

/-- As long as the bound is met nothing more is written. -/
theorem relievePressure_idle (h : w.bufferedBytes ≤ w.options.maxBufferedBytes) :
    relievePressure w = .ok () w := by
  show (if w.bufferedBytes ≤ w.options.maxBufferedBytes then _ else _ : Action σ Unit) w = _
  rw [if_pos h]
  rfl

variable {state : WriterState} {runs new : List Run} {ledger : Ledger} {w₁ w' : Writer σ}

namespace Drained

/-- Nothing was drained. -/
theorem refl (h : Holds o state runs ledger w) : Drained o state runs ledger w w :=
  ⟨[], .done w, by rwa [List.append_nil]⟩

/-- What is drained after something was drained. -/
theorem after (h : Drains w new w₁) (h' : Drained o state (runs ++ new) ledger w₁ w') :
    Drained o state runs ledger w w' := by
  obtain ⟨more, hdrains, h'⟩ := h'
  rw [List.append_assoc] at h'
  exact ⟨new ++ more, h.trans hdrains, h'⟩

/-- What is held stays held. -/
theorem keeps (h : Drained o state runs ledger w w') : Keeps o state ledger w' := by
  obtain ⟨new, -, h'⟩ := h
  exact ⟨_, h'⟩

/-- What has points afterwards had them before. -/
theorem filled (h : Drained o state runs ledger w w') {key : SeriesKey} (hkey : w'.Filled key) :
    w.Filled key := by
  obtain ⟨new, hdrains, -⟩ := h
  exact hdrains.filled hkey

end Drained

namespace Holds

/-- What a buffer and the runs of its series keep. -/
theorem keeps_buffer (h : Holds o state runs ledger w) {key : SeriesKey} {b : Buffer}
    (hb : w.buffers.find? key = some b) :
    ∃ schema accepted, o.registry.find? key = some schema ∧
      ledger.find? key = some ⟨schema.dataType, accepted⟩ ∧
      b.Keeps schema (Run.pointsOf key runs) accepted := by
  have haccount := h.accounts key
  rw [hb] at haccount
  exact haccount.keeps

/-- A series with a buffer is registered. -/
theorem key_mem (h : Holds o state runs ledger w) {key : SeriesKey} {b : Buffer}
    (hb : w.buffers.find? key = some b) : key ∈ o.registry.keys := by
  obtain ⟨schema, -, hschema, -⟩ := h.keeps_buffer hb
  exact SeriesTable.mem_keys_iff.2 ⟨schema, hschema⟩

/-- What a buffer counts is what its points take up. -/
theorem rawBytes_eq (h : Holds o state runs ledger w) {key : SeriesKey} {b : Buffer}
    (hb : w.buffers.find? key = some b) : b.rawBytes = Buffer.costs b.points := by
  obtain ⟨schema, accepted, -, -, hkeeps⟩ := h.keeps_buffer hb
  exact hkeeps.counted

/-- A buffer that has bytes has points. -/
theorem filled_of_rawBytes (h : Holds o state runs ledger w) {key : SeriesKey} {b : Buffer}
    (hb : w.buffers.find? key = some b) (hpos : 0 < b.rawBytes) : w.Filled key := by
  refine ⟨b, hb, ?_⟩
  by_contra hempty
  rw [h.rawBytes_eq hb, Buffer.points_of_isEmpty (by simpa using hempty)] at hpos
  exact absurd hpos (Nat.lt_irrefl 0)

/-- Where nothing is buffered nothing is counted. -/
theorem bufferedBytes_eq_zero (h : Holds o state runs ledger w) (hempty : ∀ key, ¬w.Filled key) :
    w.bufferedBytes = 0 :=
  h.tallies.bufferedBytes_eq_zero fun key _ hb =>
    Nat.eq_zero_of_not_pos fun hpos => hempty key (h.filled_of_rawBytes hb hpos)

/-- A run of buffered points was written and entered. -/
theorem chunked (h : Holds o state runs ledger w) {run : Run} {w' : Writer σ}
    (hchunk : Chunked run w w')
    (hwrites : Writes o state (Run.layout none runs ++
      Run.opening (Run.lastDevice none runs) run.key.device ++ [.chunk run.chunk])
      (some run.key.device) w')
    (hindexed : Indexed o.registry (runs ++ [run]) w'.index) :
    Holds o state (runs ++ [run]) ledger w' where
  toWrites := by
    rw [Run.layout_concat, Run.lastDevice_append, ← List.append_assoc]
    exact hwrites
  indexed := hindexed
  accounts key := by
    have haccount := h.accounts key
    rw [Run.pointsOf_append, hchunk.find?_eq]
    -- The account of this series has its points in the runs now; the others are as they were.
    by_cases hkey : run.key = key
    · subst hkey
      obtain ⟨b, hb, -, hpoints⟩ := (Drains.single hchunk).exists_buffer (.head _)
      rw [hb] at haccount
      rw [if_pos rfl, if_pos rfl, hpoints, hb]
      exact haccount.emptied
    · rw [if_neg hkey, if_neg hkey, List.append_nil]
      exact haccount
  tallies := h.tallies.chunked hchunk

/-- Buffered points become a run at the end of the body. -/
theorem writeChunk_filled (h : Holds o state runs ledger w) {key : SeriesKey}
    (hfilled : w.Filled key) :
    Ends (writeChunk key) w
      (fun _ w' => ∃ run, run.key = key ∧ Chunked run w w' ∧ Holds o state (runs ++ [run]) ledger w')
      (Torn o) := by
  obtain ⟨stream, ho, -⟩ := h.wrote
  obtain ⟨b, hb, hpoints⟩ := hfilled
  obtain ⟨schema, accepted, hschema, -, hkeeps⟩ := h.keeps_buffer hb
  have hnames (hn : o.registry.NamesFit) := hn key (h.key_mem hb)
  apply Ends.get
  simp only [ho, Output.stream?, Option.isNone_some, hb, hpoints, Bool.false_eq_true, if_false]
  -- The steps of writing a chunk: the group, the chunk itself, the counts and the entry.
  refine (h.beginGroup_ends fun hn => (hnames hn).1).bind fun _ begun hbegun => ?_
  obtain ⟨hwrites, output, device, rfl⟩ := hbegun
  refine (hwrites.flushBuffer_ends hkeeps hpoints fun hn => (hnames hn).2).bind
    fun _ flushed hflushed => ?_
  obtain ⟨run, rfl, hrun, htimes, hcolumn, rfl, hwrites, output', rfl⟩ := hflushed
  rw [Run.length_before]
  apply Ends.modify
  refine (enter_ends ?_ (hrun ▸ hschema)).mono (fun _ entered hentered => ?_) fun _ h => h
  · exact h.indexed
  obtain ⟨index, rfl, hindexed⟩ := hentered
  have hchunk := Chunked.mk hb hpoints htimes hcolumn output' device index
  exact ⟨run, rfl, hchunk, h.chunked hchunk { hwrites with } hindexed⟩

/-- Writing a chunk empties the buffer of its series, and no other. -/
theorem writeChunk_ends (h : Holds o state runs ledger w) (key : SeriesKey) :
    Ends (writeChunk key) w
      (fun _ w' => Drained o state runs ledger w w' ∧ ¬w'.Filled key) (Torn o) := by
  by_cases hfilled : w.Filled key
  · refine (h.writeChunk_filled hfilled).mono (fun _ w' hw' => ?_) fun _ h => h
    obtain ⟨run, rfl, hchunk, h'⟩ := hw'
    exact ⟨⟨[run], .single hchunk, h'⟩, hchunk.not_filled⟩
  · obtain ⟨stream, ho, -⟩ := h.wrote
    exact .ok (writeChunk_idle ho hfilled) ⟨.refl h, hfilled⟩

/-! ### Flushing -/

/-- A flush drains the buffer of its series, or the writer is given up. -/
theorem flushSeries_ends (h : Holds o state runs ledger w) (key : SeriesKey) :
    Ends (flushSeries key) w
      (fun _ w' => Drained o state runs ledger w w' ∧ ¬w'.Filled key) (Lost o) :=
  (h.writeChunk_ends key).orAbort

/-- A flush that succeeds has written the buffer of its series as a run, or there was nothing to
write. -/
theorem flushSeries_cases (h : Holds o state runs ledger w) {key : SeriesKey}
    (hw : flushSeries key w = .ok () w') :
    ¬w.Filled key ∧ w' = w ∨
      ∃ run, run.key = key ∧ Chunked run w w' ∧ Holds o state (runs ++ [run]) ledger w' := by
  have hchunk : writeChunk key w = .ok () w' := of_orAbort_ok hw
  by_cases hfilled : w.Filled key
  · exact .inr ((h.writeChunk_filled hfilled).of_ok hchunk)
  · obtain ⟨stream, ho, -⟩ := h.wrote
    rw [writeChunk_idle ho hfilled] at hchunk
    cases hchunk
    exact .inl ⟨hfilled, rfl⟩

/-- The buffers of other series stay as they are. -/
theorem find?_flushSeries (h : Holds o state runs ledger w) {key k : SeriesKey}
    (hw : flushSeries key w = .ok () w') (hk : k ≠ key) :
    w'.buffers.find? k = w.buffers.find? k := by
  rcases h.flushSeries_cases hw with ⟨-, rfl⟩ | ⟨run, rfl, hchunk, -⟩
  · rfl
  · exact hchunk.find?_of_ne hk

/-- Several flushes drain the buffers of their series. -/
theorem forM_flushSeries_ends (h : Holds o state runs ledger w) (keys : List SeriesKey) :
    Ends (keys.forM flushSeries) w
      (fun _ w' => Drained o state runs ledger w w' ∧ ∀ key ∈ keys, ¬w'.Filled key) (Lost o) := by
  induction keys generalizing w runs with
  | nil => exact Ends.pure ⟨.refl h, fun _ hmem => (List.not_mem_nil hmem).elim⟩
  | cons key keys ih =>
    apply (h.flushSeries_ends key).bind
    rintro - w₁ ⟨⟨new, hdrains, h₁⟩, hkey⟩
    refine (ih h₁).mono (fun _ w₂ ⟨h₂, hkeys⟩ => ⟨.after hdrains h₂, fun k hk => ?_⟩) fun _ h₂ => h₂
    -- What was emptied first is not filled by the other flushes.
    rcases List.mem_cons.1 hk with rfl | hk
    · exact fun hfilled => hkey (h₂.filled hfilled)
    · exact hkeys k hk

/-- The buffers of series that are not flushed stay as they are. -/
theorem find?_forM_flushSeries (h : Holds o state runs ledger w) {keys : List SeriesKey}
    {k : SeriesKey} (hw : keys.forM flushSeries w = .ok () w') (hk : k ∉ keys) :
    w'.buffers.find? k = w.buffers.find? k := by
  induction keys generalizing w runs with
  | nil =>
    cases hw
    rfl
  | cons key keys ih =>
    obtain ⟨hne, hk⟩ := List.ne_and_not_mem_of_not_mem_cons hk
    obtain ⟨_, w₁, hfirst, hrest⟩ := of_bind_ok hw
    obtain ⟨⟨new, -, h₁⟩, -⟩ := (h.flushSeries_ends key).of_ok hfirst
    rw [ih h₁ hrest hk, h.find?_flushSeries hfirst hne]

/-- Of different series that have points, one run after the other is written. -/
theorem forM_flushSeries_writes (h : Holds o state runs ledger w) {keys : List SeriesKey}
    (hnodup : keys.Nodup) (hfilled : ∀ key ∈ keys, w.Filled key) :
    Ends (keys.forM flushSeries) w
      (fun _ w' => ∃ new, Drains w new w' ∧ new.map Run.key = keys ∧
        Holds o state (runs ++ new) ledger w') (Lost o) := by
  induction keys generalizing w runs with
  | nil => exact Ends.pure ⟨[], .done w, rfl, by rwa [List.append_nil]⟩
  | cons key keys ih =>
    obtain ⟨hkey, hothers⟩ := List.nodup_cons.1 hnodup
    apply (h.writeChunk_filled (hfilled key (.head _))).orAbort.bind
    rintro - w₁ ⟨run, rfl, hchunk, h₁⟩
    -- The other buffers are as they were, so they still have points.
    have hfilled₁ : ∀ key ∈ keys, w₁.Filled key := by
      intro key hmem
      obtain ⟨b, hb, hpoints⟩ := hfilled key (.tail _ hmem)
      have hne : key ≠ run.key := fun heq => hkey (heq ▸ hmem)
      exact ⟨b, by rw [hchunk.find?_of_ne hne, hb], hpoints⟩
    refine (ih h₁ hothers hfilled₁).mono (fun _ w₂ h₂ => ?_) fun _ h₂ => h₂
    obtain ⟨new, hdrains, rfl, h₂⟩ := h₂
    rw [List.append_assoc] at h₂
    exact ⟨run :: new, .chunk hchunk hdrains, rfl, h₂⟩

/-- Flushing everything writes every buffer that has points. -/
theorem flushAll_writes (h : Holds o state runs ledger w) :
    Ends flushAll w
      (fun _ w' => ∃ new, Flushes w new w' ∧ Holds o state (runs ++ new) ledger w') (Lost o) := by
  have hall := h.forM_flushSeries_writes w.nodup_pending fun _ => mem_pending_iff.1
  refine Ends.get (hall.mono (fun _ w' h' => ?_) fun _ h' => h')
  obtain ⟨new, hdrains, hkeys, h'⟩ := h'
  exact ⟨new, ⟨hdrains, hkeys⟩, h'⟩

/-- Flushing everything leaves nothing in the buffers. -/
theorem flushAll_ends (h : Holds o state runs ledger w) :
    Ends flushAll w
      (fun _ w' => Drained o state runs ledger w w' ∧ ∀ key, ¬w'.Filled key) (Lost o) :=
  h.flushAll_writes.mono (fun _ _ ⟨new, hflushes, h'⟩ =>
    ⟨⟨new, hflushes.drains, h'⟩, hflushes.not_filled⟩) fun _ h' => h'

/-- One buffer after another is written until the bound is met. Each time there is one less that has
points, so with as many steps as there are such buffers the bound is met at the latest when all are
empty. -/
theorem flushLargest_ends (h : Holds o state runs ledger w) {limit : Nat}
    (hlimit : w.pending.length ≤ limit) :
    Ends (flushLargest limit) w
      (fun _ w' => Drained o state runs ledger w w' ∧
        w'.bufferedBytes ≤ o.options.maxBufferedBytes)
      (Lost o) := by
  induction limit generalizing w runs with
  | zero =>
    -- Nothing has points, so nothing is buffered.
    refine Ends.pure ⟨.refl h, ?_⟩
    have hempty : w.pending = [] := List.eq_nil_of_length_eq_zero (Nat.le_zero.1 hlimit)
    rw [h.bufferedBytes_eq_zero fun key hfilled => by simpa [hempty] using mem_pending_iff.2 hfilled]
    exact Nat.zero_le _
  | succ limit ih =>
    unfold flushLargest
    apply Ends.get
    split
    · rename_i hbound
      exact Ends.pure ⟨.refl h, h.options_eq ▸ hbound⟩
    split
    · rename_i hnone
      refine Ends.pure ⟨.refl h, ?_⟩
      rw [h.tallies.bufferedBytes_eq_zero fun key b hb => largest?_eq_none hnone hb]
      exact Nat.zero_le _
    · rename_i key hlargest
      obtain ⟨b, hb, hpos⟩ := largest?_eq_some hlargest
      refine (h.flushSeries_ends key).bind ?_
      rintro - w₁ ⟨⟨new, hdrains, h₁⟩, hkey⟩
      -- The buffer with the most bytes is empty now, and no other has got points.
      have hless := length_pending_lt (fun k => hdrains.filled) (h.filled_of_rawBytes hb hpos) hkey
      exact (ih h₁ (by omega)).mono (fun _ w₂ ⟨h₂, hbound⟩ => ⟨.after hdrains h₂, hbound⟩)
        fun _ h₂ => h₂

/-- Under either policy the bound is met. -/
theorem relievePressure_ends (h : Holds o state runs ledger w) :
    Ends relievePressure w
      (fun _ w' => Drained o state runs ledger w w' ∧
        w'.bufferedBytes ≤ o.options.maxBufferedBytes)
      (Lost o) := by
  unfold relievePressure
  apply Ends.get
  split
  · rename_i hbound
    exact Ends.pure ⟨.refl h, h.options_eq ▸ hbound⟩
  · split
    · -- All buffers are emptied.
      refine h.flushAll_ends.mono (fun _ w' ⟨h', hempty⟩ => ⟨h', ?_⟩) fun _ h' => h'
      obtain ⟨new, -, h'⟩ := h'
      rw [h'.bufferedBytes_eq_zero hempty]
      exact Nat.zero_le _
    · exact h.flushLargest_ends (Nat.le_refl _)

end Holds

namespace Keeps

/-- The state of a writer that keeps a ledger. -/
theorem state_eq (h : Keeps o state ledger w) : w.state = state := by
  obtain ⟨runs, h⟩ := h
  exact h.state_eq

theorem flushSeries_ends (h : Keeps o state ledger w) (key : SeriesKey) :
    Ends (flushSeries key) w (fun _ w' => Keeps o state ledger w') (Lost o) := by
  obtain ⟨runs, h⟩ := h
  exact (h.flushSeries_ends key).mono (fun _ _ h' => h'.1.keeps) fun _ h' => h'

theorem forM_flushSeries_ends (h : Keeps o state ledger w) (keys : List SeriesKey) :
    Ends (keys.forM flushSeries) w (fun _ w' => Keeps o state ledger w') (Lost o) := by
  obtain ⟨runs, h⟩ := h
  exact (h.forM_flushSeries_ends keys).mono (fun _ _ h' => h'.1.keeps) fun _ h' => h'

theorem flushAll_ends (h : Keeps o state ledger w) :
    Ends flushAll w (fun _ w' => Keeps o state ledger w') (Lost o) := by
  obtain ⟨runs, h⟩ := h
  exact h.flushAll_ends.mono (fun _ _ h' => h'.1.keeps) fun _ h' => h'

end Keeps

end Writer

end SeriesFile
