import SeriesFile.Proofs.RoundTrip

/-!
# Refusals and failures

An operation that reports a fault was either refused or has failed, and the fault tells which
(`Fault.isRefusal`). What was refused has not happened: the writer is what it was, with its sink.
What has failed gave the writer up, with nothing left in its buffers and its index
(`Reachable.refused_or_givenUp`).

The faults of refusals also stand on paths inside an operation, behind a point that was accepted:
where the stream of a writer is gone, and where the statistics of a chunk are merged into those of
its series. As long as a writer holds what it should (`Holds`), neither can happen, so only real
failures come out of writing chunks (`Breaks`).
-/

namespace SeriesFile

namespace Fault

/-- Whether a fault says that an operation was refused: the writer is finished, or a point does not
fit its series. -/
def isRefusal : Fault → Bool
  | unknownSeries _ | typeMismatch _ _ | outOfOrder _ _ | handleClosed | alreadyClosed => true
  | _ => false

end Fault

/-! ### Chunks that cannot be stored -/

section

variable {fault : Fault}

/-- A page that cannot be made is a fault of the points or of the encoding. -/
theorem Page.isRefusal_of_encode {encoding : Encoding} {times : List Int64} {column : Column}
    (h : encode encoding times column = .error fault) : fault.isRefusal = false := by
  unfold encode at h
  split at h
  · rw [← Except.error.inj h]
    rfl
  · split at h
    · rw [← Except.error.inj h]
      rfl
    · contradiction

/-- A size that does not fit its field is a fault of the chunk. -/
theorem Chunk.isRefusal_of_fieldOf {what : ChunkSize} {size : Nat}
    (h : fieldOf what size = .error fault) : fault.isRefusal = false := by
  unfold fieldOf at h
  split at h
  · contradiction
  · rw [← Except.error.inj h]
    rfl

variable [Compressor]

/-- A page that cannot be compressed is a fault of the compressor. -/
theorem Compression.isRefusal_of_pack {form : Compression} {page : Bytes}
    (h : form.pack page = .error fault) : fault.isRefusal = false := by
  unfold pack at h
  split at h
  · contradiction
  · cases hc : Compressor.compress form page with
    | error cause =>
      rw [hc] at h
      rw [← Except.error.inj h]
      rfl
    | ok data =>
      rw [hc] at h
      contradiction

/-- So whatever a chunk cannot be made for, it is no refusal: one of five steps has failed. -/
theorem Chunk.isRefusal_of_build {measurement : String} {schema : Schema} {times : List Int64}
    {column : Column} (h : build measurement schema times column = .error fault) :
    fault.isRefusal = false := by
  unfold build at h
  split at h
  · contradiction
  rcases bind_eq_error.1 h with h | ⟨page, -, h⟩
  · exact Page.isRefusal_of_encode h
  rcases bind_eq_error.1 h with h | ⟨payload, -, h⟩
  · exact Compression.isRefusal_of_pack h
  rcases bind_eq_error.1 h with h | ⟨pointCount, -, h⟩
  · exact isRefusal_of_fieldOf h
  rcases bind_eq_error.1 h with h | ⟨rawLength, -, h⟩
  · exact isRefusal_of_fieldOf h
  rcases bind_eq_error.1 h with h | ⟨compressedLength, -, h⟩
  · exact isRefusal_of_fieldOf h
  · contradiction

namespace Stream

variable {σ : Type} [Sink σ] {s s' : Stream σ}

omit [Compressor] in
/-- A sink that does not take bytes refuses nothing: it fails. -/
theorem isRefusal_of_put {bytes : Bytes} (h : s.put bytes = (.error fault, s')) :
    fault.isRefusal = false := by
  unfold put at h
  split at h
  · simp at h
  · rw [← Except.error.inj (Prod.mk.inj h).1]
    rfl

/-- A chunk could not be made, or the sink failed in its head or in its payload. -/
theorem isRefusal_of_appendChunk {measurement : String} {schema : Schema} {times : List Int64}
    {column : Column}
    (h : s.appendChunk measurement schema times column = (.error fault, s')) :
    fault.isRefusal = false := by
  unfold appendChunk at h
  split at h
  · rename_i hbuild
    rw [← Except.error.inj (Prod.mk.inj h).1]
    exact Chunk.isRefusal_of_build hbuild
  · simp at h
  split at h
  · rename_i hhead
    rw [← Except.error.inj (Prod.mk.inj h).1]
    exact isRefusal_of_put hhead
  split at h
  · rename_i hpayload
    rw [← Except.error.inj (Prod.mk.inj h).1]
    exact isRefusal_of_put hpayload
  · simp at h

end Stream

end

/-! ### Actions that fail -/

namespace Writer

variable {σ α β : Type}

/-- If the action on `w` fails, its fault and the writer after it are in `E`. -/
def Fails (action : Action σ α) (w : Writer σ) (E : Fault → Writer σ → Prop) : Prop :=
  ∀ fault w', action w = .error fault w' → E fault w'

namespace Fails

variable {w : Writer σ} {E E' : Fault → Writer σ → Prop} {action : Action σ α}
  {next : α → Action σ β}

/-- An action that succeeds has no failure of which something would be said. -/
theorem ok {a : α} {w' : Writer σ} (h : action w = .ok a w') : Fails action w E := by
  intro fault w'' hw
  rw [h] at hw
  contradiction

/-- Of a failure that is known, all is known. -/
theorem error {fault : Fault} {w' : Writer σ} (h : action w = .error fault w') (he : E fault w') :
    Fails action w E := by
  intro fault' w'' hw
  rw [h] at hw
  cases hw
  exact he

/-- What cannot fail does not. -/
theorem of_ends {Q : α → Writer σ → Prop} (h : Ends action w Q fun _ => False) :
    Fails action w E :=
  fun _ _ hw => (h.of_error hw).elim

/-- Less may be said of a failure. -/
theorem mono (h : Fails action w E) (he : ∀ fault w', E fault w' → E' fault w') :
    Fails action w E' :=
  fun fault w' hw => he fault w' (h fault w' hw)

theorem get {next : Writer σ → Action σ β} (h : Fails (next w) w E) :
    Fails (MonadState.get >>= next) w E := h

theorem modify {f : Writer σ → Writer σ} {next : Action σ β} (h : Fails next (f w) E) :
    Fails (modify f >>= fun _ => next) w E := h

/-- What comes second starts where the first part ended. -/
theorem bind (h : Fails action w E) (h' : ∀ a w', action w = .ok a w' → Fails (next a) w' E) :
    Fails (action >>= next) w E := by
  cases hw : action w with
  | ok a w' =>
    intro fault w'' hf
    rw [bind_ok hw] at hf
    exact h' a w' hw fault w'' hf
  | error fault w' => exact .error (bind_error hw) (h fault w' hw)

/-- A part that is known to succeed is passed over. -/
theorem after {a : α} {w' : Writer σ} (hw : action w = .ok a w') (h : Fails (next a) w' E) :
    Fails (action >>= next) w E := by
  intro fault w'' hf
  rw [bind_ok hw] at hf
  exact h fault w'' hf

end Fails

/-- A writer that was given up has nothing left of what it held. -/
structure GivenUp (w : Writer σ) : Prop where
  state_eq : w.state = .aborted
  buffers_eq : w.buffers = SeriesTable.empty
  index_eq : w.index = SeriesTable.empty
  bufferedBytes_eq : w.bufferedBytes = 0

/-- A failure inside an operation: no refusal, and the writer is still in the stage it was in. -/
def Breaks (state : WriterState) (fault : Fault) (w : Writer σ) : Prop :=
  fault.isRefusal = false ∧ w.state = state

/-- A failure that has given the writer up. -/
def Ruins (fault : Fault) (w : Writer σ) : Prop :=
  fault.isRefusal = false ∧ w.GivenUp

variable [Sink σ] {w : Writer σ} {state : WriterState}

/-- Giving up clears the buffers, the index and the count of what is buffered. -/
theorem givenUp_abort (h : w.state.isTerminal = false) : w.abort.GivenUp := by
  rw [abort, h]
  exact ⟨rfl, rfl, rfl, rfl⟩

/-- Whoever breaks off in a stage that is not yet the last gives up; whoever has given up already
stays so. -/
theorem Fails.orAbort {action : Action σ α} (hopen : state.isTerminal = false)
    (h : Fails action w fun fault w' => Breaks state fault w' ∨ Ruins fault w') :
    Fails (orAbort action) w Ruins := by
  cases hw : action w with
  | ok a w' =>
    have horAbort : Writer.orAbort action w = .ok a w' := by simp only [Writer.orAbort, hw]
    exact .ok horAbort
  | error fault w' =>
    have horAbort : Writer.orAbort action w = .error fault w'.abort := by
      simp only [Writer.orAbort, hw]
    refine .error horAbort ?_
    rcases h fault w' hw with ⟨hfault, hstate⟩ | ⟨hfault, hgone⟩
    · exact ⟨hfault, givenUp_abort (by rw [hstate, hopen])⟩
    · -- Giving up a second time changes nothing.
      have hterminal : w'.state.isTerminal = true := by
        rw [hgone.state_eq]
        rfl
      refine ⟨hfault, ?_⟩
      rwa [abort, if_pos hterminal]

/-! ### Writing chunks -/

/-- Bytes that are not put are a failure of the sink. -/
theorem put_fails {stream : Stream σ} (ho : w.output = .attached stream) (bytes : Bytes) :
    Fails (put bytes) w (Breaks w.state) := by
  intro fault w' hw
  simp only [put, ho] at hw
  split at hw
  · contradiction
  · rename_i hput
    cases hw
    exact ⟨Stream.isRefusal_of_put hput, rfl⟩

/-- A group that is not begun is a marker that was not put. -/
theorem beginGroup_fails {stream : Stream σ} (ho : w.output = .attached stream) (device : String) :
    Fails (beginGroup device) w (Breaks w.state) := by
  apply Fails.get
  split
  · exact (put_fails ho _).bind fun _ _ _ => .ok rfl
  · exact .ok rfl

variable [Compressor] {o : Opening σ} {ledger : Ledger}

/-- A buffer that is not flushed is a chunk that was not appended. -/
theorem flushBuffer_fails {stream : Stream σ} (ho : w.output = .attached stream) (key : SeriesKey)
    {b : Buffer} (hpoints : b.isEmpty = false) :
    Fails (flushBuffer key b) w (Breaks w.state) := by
  intro fault w' hw
  rcases hput : stream.appendChunk key.measurement b.schema b.times b.column with
    ⟨fault' | entry, after⟩
  · simp only [flushBuffer, ho, Buffer.flush, hpoints, hput, Bool.false_eq_true, if_false] at hw
    cases hw
    exact ⟨Stream.isRefusal_of_appendChunk hput, rfl⟩
  · simp only [flushBuffer, ho, Buffer.flush, hpoints, hput, Bool.false_eq_true, if_false] at hw
    contradiction

/-- Entering a chunk cannot fail, so what fails is storing it. -/
theorem Holds.writeChunk_fails {runs : List Run} (h : Holds o state runs ledger w)
    (key : SeriesKey) : Fails (writeChunk key) w (Breaks state) := by
  obtain ⟨stream, ho, -⟩ := h.wrote
  by_cases hfilled : w.Filled key
  -- For a series without points nothing is done.
  swap
  · exact .ok (writeChunk_idle ho hfilled)
  obtain ⟨b, hb, hpoints⟩ := hfilled
  obtain ⟨schema, accepted, hschema, -, hkeeps⟩ := h.keeps_buffer hb
  have hnames (hn : o.registry.NamesFit) := hn key (h.key_mem hb)
  apply Fails.get
  simp only [ho, Output.stream?, Option.isNone_some, hb, hpoints, Bool.false_eq_true, if_false]
  refine (beginGroup_fails ho key.device).mono (fun _ _ hf => h.state_eq ▸ hf) |>.bind
    fun _ begun hbegun => ?_
  obtain ⟨hwrites, output, device, rfl⟩ :=
    (h.beginGroup_ends fun hn => (hnames hn).1).of_ok hbegun
  obtain ⟨stream', ho', -⟩ := hwrites.wrote
  refine (flushBuffer_fails ho' key hpoints).mono (fun _ _ hf => hwrites.state_eq ▸ hf) |>.bind
    fun _ flushed hflushed => ?_
  obtain ⟨run, rfl, hrun, -, -, rfl, -, output', rfl⟩ :=
    (hwrites.flushBuffer_ends hkeeps hpoints fun hn => (hnames hn).2).of_ok hflushed
  rw [Run.length_before]
  apply Fails.modify
  -- The run is of the type of the entry and comes after what it has, so merging cannot fail.
  refine Fails.of_ends (enter_ends ?_ (hrun ▸ hschema))
  exact h.indexed

namespace Keeps

/-- As long as a writer keeps what it should, it has its stream. -/
theorem attached (h : Keeps o state ledger w) : ∃ stream, w.output = .attached stream := by
  obtain ⟨runs, h⟩ := h
  obtain ⟨stream, ho, -⟩ := h.wrote
  exact ⟨stream, ho⟩

/-- And it is in a stage that is not the last. -/
theorem isTerminal_eq (h : Keeps o state ledger w) : state.isTerminal = false := by
  obtain ⟨runs, h⟩ := h
  exact h.open_

/-- Whatever fails in writing a chunk gives the writer up. -/
theorem flushSeries_fails (h : Keeps o state ledger w) (key : SeriesKey) :
    Fails (flushSeries key) w Ruins := by
  have hopen := h.isTerminal_eq
  obtain ⟨runs, h⟩ := h
  exact ((h.writeChunk_fails key).mono fun _ _ hf => .inl hf).orAbort hopen

/-- By induction on the series. Each of them finds the writer as the one before left it, which still
keeps what it should. -/
theorem forM_flushSeries_fails (h : Keeps o state ledger w) (keys : List SeriesKey) :
    Fails (keys.forM flushSeries) w Ruins := by
  induction keys generalizing w with
  | nil => exact .ok rfl
  | cons key keys ih =>
    exact (h.flushSeries_fails key).bind fun _ _ hw => ih ((h.flushSeries_ends key).of_ok hw)

theorem flushAll_fails (h : Keeps o state ledger w) : Fails flushAll w Ruins :=
  Fails.get (h.forM_flushSeries_fails w.pending)

/-- By induction on how often a buffer may still be written, likewise. -/
theorem flushLargest_fails (h : Keeps o state ledger w) (limit : Nat) :
    Fails (flushLargest limit) w Ruins := by
  induction limit generalizing w with
  | zero => exact .ok rfl
  | succ limit ih =>
    unfold flushLargest
    apply Fails.get
    split
    · exact .ok rfl
    · split
      · exact .ok rfl
      · exact (h.flushSeries_fails _).bind fun _ _ hw => ih ((h.flushSeries_ends _).of_ok hw)

/-- Whichever way pressure is relieved, only writing chunks can fail. -/
theorem relievePressure_fails (h : Keeps o state ledger w) : Fails relievePressure w Ruins := by
  unfold relievePressure
  apply Fails.get
  split
  · exact .ok rfl
  · split
    · exact h.flushAll_fails
    · exact h.flushLargest_fails _

/-! ### Points -/

variable {ledger' : Ledger} {key : SeriesKey} {time : Int64} {value : Value}

/-- An accepted point is buffered for certain; what may fail is writing a chunk after that. -/
theorem write_fails (h : Keeps o .active ledger w) (ha : ledger.accept key time value = .ok ledger') :
    Fails (write key time value) w Ruins := by
  obtain ⟨runs, h⟩ := h
  obtain ⟨full, w₁, hbuffer, -, h₁⟩ := h.buffer_accepted ha
  have h₁ : Keeps o .active ledger' w₁ := ⟨runs, h₁⟩
  refine Fails.after (ensureOpen_ok h.state_eq) (Fails.after hbuffer ?_)
  dsimp only
  -- The buffer may be full, and then its chunk is written before pressure is relieved.
  split
  · exact (h₁.flushSeries_fails key).bind fun _ _ hw =>
      ((h₁.flushSeries_ends key).of_ok hw).relievePressure_fails
  · exact h₁.relievePressure_fails

/-- A record whose fields are all accepted is buffered for certain. -/
theorem writeRecord_fails (h : Keeps o .active ledger w) {device : String}
    {fields : List (String × Value)}
    (ha : ledger.acceptRecord device time fields = .ok ledger') :
    Fails (writeRecord device time fields) w Ruins := by
  obtain ⟨runs, h⟩ := h
  have hcheck : w.checkFields device time [] fields = .ok () := by
    rw [(h.ahead device time).checkFields_eq, ha]
    rfl
  -- All fields were checked, so none of them fails to be buffered when others have been.
  obtain ⟨full, w₁, hfields, -, h₁⟩ := h.bufferFields_ok ha
  have h₁ : Keeps o .active ledger' w₁ := ⟨runs, h₁⟩
  refine Fails.after (ensureOpen_ok h.state_eq) (Fails.get ?_)
  have hflush : Fails (full.forM flushSeries >>= fun _ => relievePressure) w₁ Ruins :=
    (h₁.forM_flushSeries_fails full).bind fun _ _ hw =>
      ((h₁.forM_flushSeries_ends full).of_ok hw).relievePressure_fails
  rw [hcheck]
  exact Fails.after hfields hflush

/-- A flush can fail only in writing chunks. -/
theorem flush_fails (h : Keeps o .active ledger w) : Fails flush w Ruins :=
  Fails.after (ensureOpen_ok h.state_eq) h.flushAll_fails

end Keeps

/-! ### Closing -/

omit [Compressor] in
/-- Whatever was put changes nothing but the stream. -/
theorem put_ok {bytes : Bytes} {w' : Writer σ} (h : put bytes w = .ok () w') :
    ∃ stream, w' = { w with output := .attached stream } := by
  unfold put at h
  split at h
  · contradiction
  · split at h
    · cases h
      exact ⟨_, rfl⟩
    · contradiction

omit [Compressor] in
/-- Putting the tail is putting bytes. -/
theorem putTail_ok {footerLength : Nat} {w' : Writer σ} (h : putTail footerLength w = .ok () w') :
    ∃ stream, w' = { w with output := .attached stream } := by
  unfold putTail at h
  split at h
  · contradiction
  · exact put_ok h

omit [Sink σ] [Compressor] in
/-- What a sink was asked for changes nothing but the stream either. -/
theorem ask_ok {request : Stream σ → Except IoCause Unit × Stream σ} {w' : Writer σ}
    (h : ask request w = .ok () w') : ∃ stream, w' = { w with output := .attached stream } := by
  unfold ask at h
  split at h
  · contradiction
  · split at h
    · cases h
      exact ⟨_, rfl⟩
    · contradiction

omit [Compressor] in
/-- The tail can fail only as bytes do. -/
theorem putTail_fails {stream : Stream σ} (ho : w.output = .attached stream) (footerLength : Nat) :
    Fails (putTail footerLength) w (Breaks w.state) := by
  have hput : putTail footerLength w =
      put (Frame.Tail.write ⟨stream.checksum, UInt32.ofNat footerLength⟩) w := by
    simp only [putTail, ho]
  rw [Fails, hput]
  exact put_fails ho _

omit [Sink σ] [Compressor] in
/-- What a sink does not do is its failure. -/
theorem ask_fails {stream : Stream σ} (ho : w.output = .attached stream)
    (request : Stream σ → Except IoCause Unit × Stream σ) :
    Fails (ask request) w (Breaks w.state) := by
  intro fault w' hw
  simp only [ask, ho] at hw
  split at hw
  · contradiction
  · cases hw
    exact ⟨rfl, rfl⟩

variable [Logarithm]

/-- A file that has been completed was completed on a stream, which is still there. -/
theorem complete_attached {w' : Writer σ} (h : complete w = .ok () w') :
    ∃ stream, w'.output = .attached stream := by
  obtain ⟨-, w₁, -, h⟩ := of_bind_ok h
  change (if 2 ^ 32 ≤ w₁.footer.write.length then _ else _ : Action σ Unit) _ = _ at h
  split at h
  · contradiction
  · obtain ⟨-, w₂, -, h⟩ := of_bind_ok h
    obtain ⟨stream, rfl⟩ := putTail_ok h
    exact ⟨stream, rfl⟩

namespace Keeps

/-- Completing the file may fail while it is flushed, and then the writer has given up already. -/
theorem complete_fails (h : Keeps o .closing ledger w) :
    Fails complete w fun fault w' => Breaks .closing fault w' ∨ Ruins fault w' := by
  refine (h.flushAll_fails.mono fun _ _ hf => .inr hf).bind fun _ w₁ hw₁ => ?_
  have h₁ := h.flushAll_ends.of_ok hw₁
  obtain ⟨stream, ho⟩ := h₁.attached
  refine Fails.get (Fails.modify ?_)
  -- Nothing that comes after the flush gives the writer up by itself.
  refine Fails.mono (E := Breaks .closing) ?_ fun _ _ hf => .inl hf
  split
  · exact .error (bind_error rfl) ⟨rfl, h₁.state_eq⟩
  · have hput := put_fails (w := { w₁ with index := SeriesTable.empty }) ho w₁.footer.write
    refine Fails.bind (h₁.state_eq ▸ hput) fun _ w₂ hw₂ => ?_
    obtain ⟨stream₂, rfl⟩ := put_ok hw₂
    exact h₁.state_eq ▸ putTail_fails rfl _

/-- Behind the tail only the sink can fail. -/
theorem finish_fails (h : Keeps o .closing ledger w) :
    Fails finish w fun fault w' => Breaks .closing fault w' ∨ Ruins fault w' := by
  refine h.complete_fails.bind fun _ w₁ hw₁ => ?_
  obtain ⟨runs, h⟩ := h
  have hstate := (h.complete_ends.of_ok hw₁).1
  obtain ⟨stream, ho⟩ := complete_attached hw₁
  refine Fails.mono (E := Breaks .closing) ?_ fun _ _ hf => .inl hf
  refine Fails.bind (hstate ▸ ask_fails ho _) fun _ w₂ hw₂ => Fails.get ?_
  obtain ⟨stream₂, rfl⟩ := ask_ok hw₂
  split
  · exact hstate ▸ ask_fails rfl _
  · exact .ok rfl

/-- Whatever fails in closing gives the writer up: there is no second try. -/
theorem close_fails (h : Keeps o .active ledger w) : Fails close w Ruins := by
  obtain ⟨runs, h⟩ := h
  have hclosing : Keeps o .closing ledger { w with state := .closing } :=
    ⟨runs, h.closing⟩
  have hfinish := hclosing.finish_fails.orAbort rfl
  intro fault w' hw
  simp only [close, h.state_eq] at hw
  split at hw
  · contradiction
  · rename_i horAbort
    cases hw
    exact hfinish _ _ horAbort

end Keeps

/-! ### Operations -/

end Writer

namespace Ledger

variable {ledger ledger' : Ledger} {fault : Fault}

/-- A point is refused for one of three reasons, and each of them is a refusal. -/
theorem isRefusal_of_accept {key : SeriesKey} {time : Int64} {value : Value}
    (h : ledger.accept key time value = .error fault) : fault.isRefusal = true := by
  unfold accept at h
  -- Unknown series, another type, or no later than the last point.
  split at h
  · rw [← Except.error.inj h]
    rfl
  dsimp only at h
  split at h
  · rw [← Except.error.inj h]
    rfl
  split at h
  · contradiction
  split at h
  · rw [← Except.error.inj h]
    rfl
  · contradiction

/-- A record is refused for one of its fields: by induction on those in front of it. -/
theorem isRefusal_of_acceptRecord {device : String} {time : Int64} {fields : List (String × Value)}
    (h : ledger.acceptRecord device time fields = .error fault) : fault.isRefusal = true := by
  induction fields generalizing ledger with
  | nil => contradiction
  | cons field fields ih =>
    rw [acceptRecord, List.foldlM_cons] at h
    cases hl : ledger.accept ⟨device, field.1⟩ time field.2 with
    | error fault' =>
      rw [hl] at h
      exact Except.error.inj h ▸ isRefusal_of_accept hl
    | ok ledger' =>
      rw [hl] at h
      exact ih h

end Ledger

namespace Writer

variable {σ : Type} [Sink σ] [Compressor] [Logarithm] {o : Opening σ} {ledger : Ledger}
  {w : Writer σ}

/-- A writer that was opened, and asked for something any number of times. -/
inductive Reachable : Writer σ → Prop
  | opened {sink : σ} {registry : Registry} {options : Options} {w : Writer σ}
      (start : start sink registry options = .ok w) : Reachable w
  | after {w : Writer σ} (before : Reachable w) (op : Operation) : Reachable (w.perform op).2

/-- Of a finished writer everything is refused. -/
theorem isRefusal_of_terminal (h : w.state.isTerminal = true) {op : Operation} {fault : Fault}
    (hf : (w.perform op).1 = .error fault) : fault.isRefusal = true := by
  rw [perform_late h] at hf
  cases op with
  | close =>
    obtain rfl := Except.error.inj hf
    split <;> rfl
  | write | writeRecord | flush =>
    obtain rfl := Except.error.inj hf
    rfl
  | abort | drop => contradiction

namespace Keeps

variable {op : Operation} {fault : Fault}

/-- What is said of the failures of an action is said of the answer of its operation. -/
theorem of_fails (h : Fails (action op) w Ruins) (hf : (w.perform op).1 = .error fault) :
    Ruins fault (w.perform op).2 := by
  cases hw : action op w with
  | ok done w' =>
    rw [perform_ok hw] at hf
    contradiction
  | error fault' w' =>
    rw [perform_error hw] at hf ⊢
    exact Except.error.inj hf ▸ h fault' w' hw

/-- An open writer refuses what its ledger refuses, and is as it was; any other failure ruins it. -/
theorem refused_or_ruined (h : Keeps o .active ledger w) (hf : (w.perform op).1 = .error fault) :
    fault.isRefusal = true ∧ (w.perform op).2 = w ∨ Ruins fault (w.perform op).2 := by
  cases op with
  | write key time value =>
    cases hl : ledger.accept key time value with
    | error fault' =>
      have hw : action (.write key time value) w = .error fault' w := h.write_refused hl
      rw [perform_error hw] at hf ⊢
      obtain rfl := Except.error.inj hf
      exact .inl ⟨Ledger.isRefusal_of_accept hl, rfl⟩
    | ok ledger' => exact .inr (of_fails (h.write_fails hl) hf)
  | writeRecord device time fields =>
    cases hl : ledger.acceptRecord device time fields with
    | error fault' =>
      have hw : action (.writeRecord device time fields) w = .error fault' w :=
        h.writeRecord_refused hl
      rw [perform_error hw] at hf ⊢
      obtain rfl := Except.error.inj hf
      exact .inl ⟨Ledger.isRefusal_of_acceptRecord hl, rfl⟩
    | ok ledger' => exact .inr (of_fails (h.writeRecord_fails hl) hf)
  | flush => exact .inr (of_fails h.flush_fails hf)
  | close => exact .inr (of_fails h.close_fails hf)
  | abort | drop => contradiction

end Keeps

namespace Reachable

/-- As long as a writer is not finished it is open and holds what it should. -/
theorem keeps_or_terminal (h : Reachable w) :
    (∃ o ledger, Keeps o .active ledger w) ∨ w.state.isTerminal = true := by
  -- By induction on how the writer was reached: an open writer either goes on or finishes, and a
  -- finished one stays so.
  induction h with
  | opened start => exact .inl ⟨_, _, start_ok start⟩
  | after before op ih =>
    rcases ih with ⟨o, ledger, h⟩ | h
    · cases h.outcome op with
      | kept _ _ keeps => exact .inl ⟨o, _, keeps⟩
      | lost _ lost => exact .inr (isTerminal_of_aborted lost.aborted)
      | finished _ _ terminal _ => exact .inr terminal
    · exact .inr (by rwa [perform_terminal h])

/-- Between operations a writer is open or finished. -/
theorem state_ne_closing (h : Reachable w) : w.state ≠ .closing := by
  rcases h.keeps_or_terminal with ⟨o, ledger, hkeeps⟩ | hterminal
  · rw [hkeeps.state_eq]
    exact nofun
  · intro heq
    rw [heq] at hterminal
    contradiction

/-- An open writer keeps what it should. -/
theorem keeps (h : Reachable w) (hs : w.state = .active) : ∃ o ledger, Keeps o .active ledger w := by
  rcases h.keeps_or_terminal with hkeeps | hterminal
  · exact hkeeps
  · rw [hs] at hterminal
    contradiction

/-- Only closing closes an open writer. -/
theorem active_or_aborted (h : Reachable w) (hs : w.state = .active) {op : Operation}
    (hne : op ≠ .close) :
    (w.perform op).2.state = .active ∨ (w.perform op).2.state = .aborted := by
  obtain ⟨o, ledger, hkeeps⟩ := h.keeps hs
  cases hkeeps.outcome op with
  | kept _ _ keeps => exact .inl keeps.state_eq
  | lost _ lost => exact .inr lost.aborted
  | finished closes => exact absurd closes hne

/-- Closing an open writer closes it or gives it up, and its answer tells which. -/
theorem closed_or_aborted (h : Reachable w) (hs : w.state = .active) :
    (w.perform .close).1 = .ok () ∧ (w.perform .close).2.state = .closed ∨
      ∃ fault, (w.perform .close).1 = .error fault ∧ (w.perform .close).2.state = .aborted := by
  obtain ⟨o, ledger, hkeeps⟩ := h.keeps hs
  have hends : Ends (action .close) w _ _ := hkeeps.close_ends
  rcases hends.perform with ⟨hanswer, hclosed, -⟩ | ⟨fault, hanswer, haborted, -⟩
  · exact .inl ⟨hanswer, hclosed⟩
  · exact .inr ⟨fault, hanswer, haborted⟩

/-- A writer is closed by closing it with success. -/
theorem closed_perform_iff (h : Reachable w) (op : Operation) :
    (w.perform op).2.state = .closed ↔
      w.state = .closed ∨ op = .close ∧ (w.perform op).1 = .ok () := by
  by_cases hs : w.state = .active
  · have hne : w.state ≠ .closed := by
      rw [hs]
      exact nofun
    by_cases hop : op = .close
    · subst hop
      rcases h.closed_or_aborted hs with ⟨hanswer, hstate⟩ | ⟨fault, hanswer, hstate⟩
      · simp [hanswer, hstate]
      · simp [hanswer, hstate, hne]
    · rcases h.active_or_aborted hs hop with hstate | hstate <;> simp [hstate, hop, hne]
  · -- A finished writer is answered without being changed, and never with a close that succeeds.
    have hterminal : w.state.isTerminal = true := by
      rcases h.keeps_or_terminal with ⟨o, ledger, hkeeps⟩ | hterminal
      · exact absurd hkeeps.state_eq hs
      · exact hterminal
    have hlate : ¬(op = .close ∧ lateAnswer w.state op = .ok ()) := by
      rintro ⟨rfl, hanswer⟩
      contradiction
    rw [perform_late hterminal]
    exact (or_iff_left hlate).symm

/-- A writer ends up closed exactly if some close of it succeeded: by induction on the
operations. -/
theorem closed_after_iff (h : Reachable w) (ops : List Operation) :
    (w.after ops).state = .closed ↔
      w.state = .closed ∨ (.close, .ok ()) ∈ ops.zip (w.performAll ops).1 := by
  induction ops generalizing w with
  | nil => simp
  | cons op ops ih =>
    rw [after_cons, ih (h.after op), h.closed_perform_iff op]
    show _ ↔ _ ∨ _ ∈ (op, (w.perform op).1) :: ops.zip ((w.perform op).2.performAll ops).1
    rw [List.mem_cons, Prod.mk.injEq, or_assoc, eq_comm (b := op), eq_comm (b := (w.perform op).1)]

/-- An operation that reports a fault was refused and has not happened, or it ruined the writer. -/
theorem refused_or_ruined (h : Reachable w) {op : Operation} {fault : Fault}
    (hf : (w.perform op).1 = .error fault) :
    fault.isRefusal = true ∧ (w.perform op).2 = w ∨ Ruins fault (w.perform op).2 := by
  rcases h.keeps_or_terminal with ⟨o, ledger, hkeeps⟩ | hterminal
  · exact hkeeps.refused_or_ruined hf
  · exact .inl ⟨isRefusal_of_terminal hterminal hf, perform_terminal hterminal op⟩

/-- What is refused has not happened, and what fails gives the writer up with nothing left. A
finished writer stays as it is, and no writer is ever left in the middle of closing. -/
theorem refused_or_givenUp (h : Reachable w) (op : Operation) :
    (∀ fault, (w.perform op).1 = .error fault → fault.isRefusal = true → (w.perform op).2 = w) ∧
      (∀ fault, (w.perform op).1 = .error fault → fault.isRefusal = false →
        (w.perform op).2.GivenUp) ∧
      (w.state.isTerminal = true → (w.perform op).2 = w) ∧ w.state ≠ .closing := by
  refine ⟨fun fault hf hr => ?_, fun fault hf hr => ?_, fun ht => perform_terminal ht op,
    h.state_ne_closing⟩
  · rcases h.refused_or_ruined hf with ⟨-, hsame⟩ | ⟨hno, -⟩
    · exact hsame
    · rw [hr] at hno
      contradiction
  · rcases h.refused_or_ruined hf with ⟨hyes, -⟩ | ⟨-, hgone⟩
    · rw [hr] at hyes
      contradiction
    · exact hgone

end Reachable

/-- The answers of a writer that could be opened. -/
def answers? (sink : σ) (registry : Registry) (options : Options) (ops : List Operation) :
    Option (List (Except Fault Unit)) :=
  match start sink registry options with
  | .error _ => none
  | .ok opened => some (opened.performAll ops).1

/-- Answers come from a writer that was opened. -/
theorem exists_of_answers? {sink : σ} {registry : Registry} {options : Options}
    {ops : List Operation} {answers : List (Except Fault Unit)}
    (h : answers? sink registry options ops = some answers) :
    ∃ opened, start sink registry options = .ok opened ∧ (opened.performAll ops).1 = answers := by
  unfold answers? at h
  split at h
  · contradiction
  · rename_i opened hstart
    exact ⟨opened, hstart, Option.some.inj h⟩

end Writer

section

attribute [local instance] sampleLogarithm

/-- A sink with room for the head of a file and little more. -/
def sampleCramped : MemorySink :=
  { MemorySink.unlimited with capacity := some 64 }

/-- A point, another that is refused, and a flush for which there is no room. -/
def sampleMishaps : List Operation := [
  .write ⟨"root.a", "t"⟩ 1 (.int32 7),
  .write ⟨"root.a", "t"⟩ 1 (.int32 8),
  .flush]

theorem sample_mishaps : Writer.answers? sampleCramped sampleRegistry sampleOptions sampleMishaps =
    some [.ok (), .error (.outOfOrder 1 1), .error (.writeFailure (.refused "disk full"))] := by
  decide +kernel

/-- The second point is not later than the first and leaves the writer as it was; the flush fails
for want of room and gives it up. -/
theorem refused_or_givenUp_sample : ∃ w w' : Writer MemorySink,
    w.Reachable ∧ w'.Reachable ∧
      (w.perform (.write ⟨"root.a", "t"⟩ 1 (.int32 8))).1 = .error (.outOfOrder 1 1) ∧
      (w.perform (.write ⟨"root.a", "t"⟩ 1 (.int32 8))).2 = w ∧
      (w'.perform .flush).1 = .error (.writeFailure (.refused "disk full")) ∧
      (w'.perform .flush).2.GivenUp := by
  obtain ⟨opened, hstart, hanswers⟩ := Writer.exists_of_answers? sample_mishaps
  have hopened : opened.Reachable := .opened hstart
  have hwritten := hopened.after (.write ⟨"root.a", "t"⟩ 1 (.int32 7))
  have hrefused := hwritten.after (.write ⟨"root.a", "t"⟩ 1 (.int32 8))
  obtain ⟨-, hanswers⟩ := List.cons.inj hanswers
  obtain ⟨hrefusal, hanswers⟩ := List.cons.inj hanswers
  obtain ⟨hfailure, -⟩ := List.cons.inj hanswers
  exact ⟨_, _, hwritten, hrefused, hrefusal,
    (Writer.Reachable.refused_or_givenUp hwritten _).1 _ hrefusal rfl, hfailure,
    (Writer.Reachable.refused_or_givenUp hrefused _).2.1 _ hfailure rfl⟩

end

end SeriesFile
