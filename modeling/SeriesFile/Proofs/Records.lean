import SeriesFile.Proofs.Delivering

/-!
# A record and its writes

A record that is accepted does what its writes do, one after another, only that it buffers all of
its points before it writes the first chunk. That makes no difference: what a flush does depends on
the buffer of its series, the output and the index alone (`writeChunk_local`), so it may be done
before points of other series are buffered or after that (`Holds.flushSeries_taking`), and the
points of a record all belong to different series.

A record of which a field is refused does nothing, while its writes before that field are done.
-/

namespace SeriesFile

namespace Writer

variable {σ : Type} {w w' v : Writer σ} {key k : SeriesKey} {b : Buffer}

/-! ### What a flush depends on -/

section

variable [Sink σ]

/-- What bytes do to a stream depends on the output alone. -/
theorem put_local {bytes : Bytes} (hw : put bytes w = .ok () w') (ho : v.output = w.output) :
    put bytes v = .ok () { v with output := w'.output } := by
  unfold put at hw ⊢
  rw [ho]
  split at hw
  · contradiction
  · split at hw
    · cases hw
      rfl
    · contradiction

/-- A group is begun or not as the last device was. -/
theorem beginGroup_local {name : String} (hw : beginGroup name w = .ok () w')
    (ho : v.output = w.output) (hd : v.device = w.device) :
    beginGroup name v = .ok () { v with output := w'.output, device := w'.device } := by
  change (if w.device ≠ some name then _ else _ : Action σ Unit) w = _ at hw
  show (if v.device ≠ some name then _ else _ : Action σ Unit) v = _
  rw [hd]
  split at hw
  · rename_i hdevice
    obtain ⟨_, w₁, hput, hw⟩ := of_bind_ok hw
    cases hw
    rw [if_pos hdevice, bind_ok (put_local hput ho)]
    rfl
  · rename_i hdevice
    cases hw
    rw [if_neg hdevice, ← ho, ← hd]
    rfl

variable [Compressor]

/-- What becomes of a buffer with points depends on it and on the output. -/
theorem flushBuffer_local {entry : Option ChunkEntry} (hw : flushBuffer key b w = .ok entry w')
    (hfilled : b.isEmpty = false) (ho : v.output = w.output) :
    flushBuffer key b v = .ok entry
      { v with output := w'.output, buffers := v.buffers.insert key b.emptied } := by
  unfold flushBuffer at hw ⊢
  rw [ho]
  cases houtput : w.output with
  | released sink =>
    rw [houtput] at hw
    contradiction
  | attached stream =>
    simp only [houtput, Buffer.flush, hfilled, Bool.false_eq_true, if_false] at hw ⊢
    generalize stream.appendChunk key.measurement b.schema b.times b.column = appended at hw ⊢
    obtain ⟨fault | answer, after⟩ := appended
    · contradiction
    · cases hw
      rfl

omit [Sink σ] [Compressor] in
/-- What is entered depends on the index. -/
theorem enter_local {chunk : ChunkEntry} (hw : enter key chunk w = .ok () w')
    (hi : v.index = w.index) :
    ∃ index, w' = { w with index } ∧ enter key chunk v = .ok () { v with index } := by
  unfold enter at hw ⊢
  rw [hi]
  split at hw
  · cases hw
    exact ⟨_, rfl, rfl⟩
  · split at hw
    · cases hw
      exact ⟨_, rfl, rfl⟩
    · contradiction

/-- A buffer with points is written in the same way by every writer that has the same output and
index, and the same points for that series. -/
theorem writeChunk_local {o : Opening σ} {state : WriterState} {runs : List Run} {ledger : Ledger}
    (h : Holds o state runs ledger w) (hw : writeChunk key w = .ok () w')
    (hb : w.buffers.find? key = some b) (hfilled : b.isEmpty = false) (ho : v.output = w.output)
    (hd : v.device = w.device) (hi : v.index = w.index) (hb' : v.buffers.find? key = some b) :
    writeChunk key v = .ok () { v with
      output := w'.output
      device := w'.device
      index := w'.index
      buffers := v.buffers.insert key b.emptied
      bufferedBytes := v.bufferedBytes - b.rawBytes
      chunksFlushed := v.chunksFlushed + 1 } := by
  obtain ⟨stream, houtput, -⟩ := h.wrote
  obtain ⟨schema, accepted, -, -, hkeeps⟩ := h.keeps_buffer hb
  have hnames (hn : o.registry.NamesFit) := hn key (h.key_mem hb)
  -- First the steps that were taken: a group, the chunk, the counts and the entry.
  obtain ⟨_, _, hget, hw⟩ := of_bind_ok hw
  cases hget
  simp only [houtput, Output.stream?, Option.isNone_some, hb, hfilled, Bool.false_eq_true,
    if_false] at hw
  obtain ⟨_, w₁, hgroup, hw⟩ := of_bind_ok hw
  obtain ⟨entry, w₂, hflush, hw⟩ := of_bind_ok hw
  obtain ⟨hwrites, output, device, hw₁⟩ :=
    (h.beginGroup_ends fun hn => (hnames hn).1).of_ok hgroup
  obtain ⟨run, -, -, -, -, rfl, -, output', hw₂⟩ :=
    (hwrites.flushBuffer_ends hkeeps hfilled fun hn => (hnames hn).2).of_ok hflush
  obtain ⟨_, w₃, hmodify, henter⟩ := of_bind_ok hw
  cases hmodify
  -- Now the same on the other writer, step by step.
  have hget' : (get : Action σ (Writer σ)) v = .ok v v := rfl
  have hgroup' := beginGroup_local hgroup ho hd
  have hflush' := flushBuffer_local (v := { v with output := w₁.output, device := w₁.device }) hflush
    hfilled rfl
  subst hw₁ hw₂
  obtain ⟨index, rfl, henter'⟩ := enter_local (v := { v with
    output := output'
    device
    buffers := v.buffers.insert key b.emptied
    bufferedBytes := v.bufferedBytes - b.rawBytes
    chunksFlushed := v.chunksFlushed + 1 }) henter hi
  rw [writeChunk, bind_ok hget']
  simp only [ho, houtput, Output.stream?, Option.isNone_some, hb', hfilled, Bool.false_eq_true,
    if_false]
  rw [bind_ok hgroup', bind_ok hflush']
  exact henter'

end

/-! ### Points of other series -/

/-- The writer with another buffer for a series, which has one more point. -/
def taking (w : Writer σ) (key : SeriesKey) (b : Buffer) (added : Nat) : Writer σ :=
  { w with
    buffers := w.buffers.insert key b
    bufferedBytes := w.bufferedBytes + added
    pointsWritten := w.pointsWritten + 1 }

variable [Sink σ] [Compressor] {o : Opening σ} {state : WriterState} {runs : List Run}
  {ledger ledger' : Ledger} {time : Int64} {value : Value}

/-- A flush may as well be done after a point of another series was buffered. -/
theorem Holds.flushSeries_taking (h : Holds o state runs ledger w)
    (hw : flushSeries key w = .ok () w') (hk : k ≠ key) (b' : Buffer) (added : Nat) :
    flushSeries key (w.taking k b' added) = .ok () (w'.taking k b' added) := by
  obtain ⟨stream, ho, -⟩ := h.wrote
  have hfind : (w.taking k b' added).buffers.find? key = w.buffers.find? key := by
    rw [taking, SeriesTable.find?_insert, if_neg hk]
  suffices hchunk : writeChunk key (w.taking k b' added) = .ok () (w'.taking k b' added) by
    simp only [flushSeries, orAbort, hchunk]
  have hwrite : writeChunk key w = .ok () w' := of_orAbort_ok hw
  rcases h.flushSeries_cases hw with ⟨hidle, rfl⟩ | ⟨run, rfl, hchunked, -⟩
  · -- Without points nothing is written, here as there.
    have hidle' : ¬(w'.taking k b' added).Filled key := by
      rintro ⟨b, hb, hfilled⟩
      exact hidle ⟨b, hfind ▸ hb, hfilled⟩
    have houtput : (w'.taking k b' added).output = .attached stream := ho
    exact writeChunk_idle houtput hidle'
  · obtain ⟨hb, hfilled⟩ := hchunked
    have hlocal := writeChunk_local (v := w.taking k b' added) h hwrite hb hfilled rfl rfl rfl
      (hfind.trans hb)
    rw [hlocal]
    -- The bytes that are taken off had been counted, so it does not matter that others were added
    -- before.
    have hbytes := h.tallies.rawBytes_le hb
    simp only [taking, SeriesTable.insert_comm hk]
    congr 2
    omega

omit [Sink σ] [Compressor] in
/-- What buffering a point that is accepted does. -/
theorem buffer_cases {full : Bool} (hw : buffer key time value w = .ok full w') :
    ∃ b b' added, w.buffers.find? key = some b ∧ b.append time value = .ok (added, b') ∧
      full = b'.isFull w.options ∧ w' = w.taking key b' added := by
  cases hb : w.buffers.find? key with
  | none =>
    rw [buffer_unknown hb] at hw
    contradiction
  | some b =>
    cases happend : b.append time value with
    | error fault =>
      rw [buffer_error hb happend] at hw
      contradiction
    | ok appended =>
      obtain ⟨added, b'⟩ := appended
      rw [buffer_ok hb happend] at hw
      cases hw
      exact ⟨b, b', added, rfl, happend, rfl, rfl⟩

namespace Holds

/-- Only what the ledger accepts is buffered. -/
theorem of_buffer (h : Holds o state runs ledger w) {full : Bool}
    (hw : buffer key time value w = .ok full w') : ∃ ledger', Holds o state runs ledger' w' := by
  cases hl : ledger.accept key time value with
  | error fault =>
    rw [h.buffer_refused hl] at hw
    contradiction
  | ok ledger' =>
    obtain ⟨full', w₁, hbuffer, -, h₁⟩ := h.buffer_accepted hl
    rw [hbuffer] at hw
    cases hw
    exact ⟨ledger', h₁⟩

/-- A flush and a point of another series may be done in either order. -/
theorem buffer_swap (h : Holds o state runs ledger w) {w₁ w₂ : Writer σ} {full : Bool}
    (hflush : flushSeries key w = .ok () w₁) (hbuffer : buffer k time value w = .ok full w₂)
    (hk : k ≠ key) :
    ∃ w₃, buffer k time value w₁ = .ok full w₃ ∧ flushSeries key w₂ = .ok () w₃ := by
  obtain ⟨b, b', added, hb, happend, rfl, rfl⟩ := buffer_cases hbuffer
  -- The flush has left the other buffer alone.
  have hb₁ : w₁.buffers.find? k = some b := by
    rw [h.find?_flushSeries hflush hk, hb]
  have hoptions : w₁.options = w.options := by
    obtain ⟨⟨new, hdrains, -⟩, -⟩ := (h.flushSeries_ends key).of_ok hflush
    exact hdrains.options_eq
  refine ⟨w₁.taking k b' added, ?_, h.flushSeries_taking hflush hk b' added⟩
  rw [← hoptions]
  exact buffer_ok hb₁ happend

/-- A flush and the points of other series may be done in either order. -/
theorem bufferFields_swap {device : String} {fields : List (String × Value)}
    (h : Holds o state runs ledger w) {w₁ w₂ : Writer σ} {full : List SeriesKey}
    (hflush : flushSeries key w = .ok () w₁)
    (hfields : bufferFields device time fields w = .ok full w₂)
    (hkey : ∀ field ∈ fields, (⟨device, field.1⟩ : SeriesKey) ≠ key) :
    ∃ w₃, bufferFields device time fields w₁ = .ok full w₃ ∧ flushSeries key w₂ = .ok () w₃ := by
  induction fields generalizing w w₁ ledger full with
  | nil =>
    cases hfields
    exact ⟨w₁, rfl, hflush⟩
  | cons field fields ih =>
    obtain ⟨measurement, value⟩ := field
    obtain ⟨first, w', hbuffer, hfields⟩ := of_bind_ok hfields
    obtain ⟨others, w'', hrest, hfull⟩ := of_bind_ok hfields
    cases hfull
    obtain ⟨w₁', hbuffer₁, hflush'⟩ := h.buffer_swap hflush hbuffer (hkey _ (.head _))
    obtain ⟨ledger', h'⟩ := h.of_buffer hbuffer
    obtain ⟨w₃, hrest₁, hlast⟩ := ih h' hflush' hrest fun f hf => hkey f (.tail _ hf)
    refine ⟨w₃, ?_, hlast⟩
    rw [bufferFields, bind_ok hbuffer₁, bind_ok hrest₁]
    rfl

end Holds

/-! ### Writes within the bound -/

omit [Compressor] [Sink σ] in
/-- What drains buffers does not add to what is buffered. -/
theorem Drains.bufferedBytes_le [Compressor] {new : List Run} (h : Drains w new w') :
    w'.bufferedBytes ≤ w.bufferedBytes := by
  induction h with
  | done _ => exact Nat.le_refl _
  | chunk first _ ih =>
    obtain ⟨_⟩ := first
    exact Nat.le_trans ih (Nat.sub_le _ _)

omit [Sink σ] in
/-- Whether the chunk that a point fills can be made. -/
def packsFull (w : Writer σ) (key : SeriesKey) (time : Int64) (value : Value) : Bool :=
  match buffer key time value w with
  | .ok true w' => w'.packs key
  | .ok false _ | .error _ _ => true

omit [Sink σ] in
/-- The chunk of a buffer that is full can be made. -/
theorem packs_of_packsFull (h : w.packsFull key time value = true)
    (hw : buffer key time value w = .ok true w') : w'.packs key = true := by
  rw [packsFull, hw] at h
  exact h

namespace Holds

variable {P : σ → Prop} (g : Sink.Generous P)
include g

/-- On a sink that takes everything a point within the bound is buffered, and written if its buffer
is full then. -/
theorem write_delivers (h : Holds o .active runs ledger w) (hp : P w.output.sink)
    (hsupported : o.registry.IsSupported) (ha : ledger.accept key time value = .ok ledger')
    (hroom : w.bufferedBytes + Buffer.cost value ≤ w.options.maxBufferedBytes)
    (hfits : w.packsFull key time value = true) :
    ∃ full w₁ w₂ new, buffer key time value w = .ok full w₁ ∧ Holds o .active runs ledger' w₁ ∧
      (if full then flushSeries key else pure ()) w₁ = .ok () w₂ ∧
      write key time value w = .ok () w₂ ∧ Holds o .active (runs ++ new) ledger' w₂ ∧
      P w₂.output.sink ∧ w₂.options = w.options ∧
      w₂.bufferedBytes ≤ w.bufferedBytes + Buffer.cost value := by
  obtain ⟨full, w₁, hbuffer, hbuffered, h₁⟩ := h.buffer_accepted ha
  have hp₁ : P w₁.output.sink := by
    obtain ⟨_⟩ := hbuffered
    exact hp
  have hbytes : w₁.bufferedBytes = w.bufferedBytes + Buffer.cost value := by
    obtain ⟨_⟩ := hbuffered
    rfl
  -- A full buffer is written at once.
  obtain ⟨w₂, new, hflush, h₂, hp₂, hdrains⟩ : ∃ w₂ new,
      (if full then flushSeries key else pure () : Action σ Unit) w₁ = .ok () w₂ ∧
        Holds o .active (runs ++ new) ledger' w₂ ∧ P w₂.output.sink ∧ Drains w₁ new w₂ := by
    cases full with
    | true =>
      obtain ⟨w₂, hflush, hp₂, ⟨new, hdrains, h₂⟩, -⟩ :=
        h₁.flushSeries_delivers g hp₁ hsupported (packs_of_packsFull hfits hbuffer)
      exact ⟨w₂, new, hflush, h₂, hp₂, hdrains⟩
    | false =>
      exact ⟨w₁, [], rfl, by rwa [List.append_nil], hp₁, .done w₁⟩
  have hle : w₂.bufferedBytes ≤ w.bufferedBytes + Buffer.cost value :=
    hbytes ▸ hdrains.bufferedBytes_le
  have hoptions : w₂.options = w.options := hdrains.options_eq.trans hbuffered.options_eq
  refine ⟨full, w₁, w₂, new, hbuffer, h₁, hflush, ?_, h₂, hp₂, hoptions, hle⟩
  have hreceive : receive (.write key time value) w = .ok () w₂ := by
    rw [receive, bind_ok (ensureOpen_ok h.state_eq), bind_ok hbuffer]
    exact hflush
  rw [write_eq_receive, bind_ok hreceive]
  -- Within the bound there is no pressure to relieve.
  apply relievePressure_idle
  rw [hoptions]
  exact Nat.le_trans hle hroom

end Holds

/-! ### Records -/

/-- The writes that a record comes to. -/
def recordWrites (device : String) (time : Int64) (fields : List (String × Value)) :
    List Operation :=
  fields.map fun field => .write ⟨device, field.1⟩ time field.2

/-- The first fault among some answers. -/
def firstFault? : List (Except Fault Unit) → Option Fault
  | [] => none
  | .ok () :: answers => firstFault? answers
  | .error fault :: _ => some fault

omit [Compressor] in
/-- Among successes there is no fault. -/
theorem firstFault?_replicate (n : Nat) : firstFault? (List.replicate n (.ok ())) = none := by
  induction n with
  | zero => rfl
  | succ n ih => exact ih

variable [Logarithm]

/-- Whether the chunks that the writes of a record fill, one after another, can be made. -/
def packsRecord (device : String) (time : Int64) : List (String × Value) → Writer σ → Bool
  | [], _ => true
  | (measurement, value) :: fields, w =>
    w.packsFull ⟨device, measurement⟩ time value &&
      match w.perform (.write ⟨device, measurement⟩ time value) with
      | (.ok (), w') => packsRecord device time fields w'
      | (.error _, _) => true

/-- The first field can be written, and then the others. -/
theorem packsRecord_cons {device measurement : String} {fields : List (String × Value)}
    (h : packsRecord device time ((measurement, value) :: fields) w = true) :
    w.packsFull ⟨device, measurement⟩ time value = true ∧
      ∀ w', w.perform (.write ⟨device, measurement⟩ time value) = (.ok (), w') →
        packsRecord device time fields w' = true := by
  rw [packsRecord, Bool.and_eq_true] at h
  refine ⟨h.1, ?_⟩
  intro w' hperform
  rw [hperform] at h
  exact h.2

/-- The bytes that the points of a record take up. -/
def recordCost (fields : List (String × Value)) : Nat :=
  (fields.map fun field => Buffer.cost field.2).sum

omit [Compressor] [Logarithm] [Sink σ] in
/-- The cost of a record is that of its first field and of the others. -/
theorem recordCost_cons (measurement : String) (value : Value) (fields : List (String × Value)) :
    recordCost ((measurement, value) :: fields) = Buffer.cost value + recordCost fields := by
  rw [recordCost, List.map_cons, List.sum_cons, recordCost]

namespace Holds

variable {P : σ → Prop} (g : Sink.Generous P) {device : String} {fields : List (String × Value)}
include g

/-- Buffering the points of a record and then writing the chunks that are full comes to the same as
its writes. -/
theorem record_delivers (h : Holds o .active runs ledger w) (hp : P w.output.sink)
    (hsupported : o.registry.IsSupported)
    (ha : ledger.acceptRecord device time fields = .ok ledger')
    (hnames : (fields.map Prod.fst).Nodup)
    (hroom : w.bufferedBytes + recordCost fields ≤ w.options.maxBufferedBytes)
    (hfits : packsRecord device time fields w = true) :
    ∃ full w₁ w₂, bufferFields device time fields w = .ok full w₁ ∧
      full.forM flushSeries w₁ = .ok () w₂ ∧
      w.performAll (recordWrites device time fields) =
        (List.replicate fields.length (.ok ()), w₂) ∧
      w₂.bufferedBytes ≤ w₂.options.maxBufferedBytes := by
  induction fields generalizing w runs ledger with
  | nil => exact ⟨[], w, w, rfl, rfl, rfl, hroom⟩
  | cons field fields ih =>
    obtain ⟨measurement, value⟩ := field
    rw [Ledger.acceptRecord, List.foldlM_cons] at ha
    obtain ⟨ledger₁, haccept, ha⟩ := bind_eq_ok.1 ha
    change ledger.accept ⟨device, measurement⟩ time value = .ok ledger₁ at haccept
    obtain ⟨hname, hnames⟩ := List.nodup_cons.1 hnames
    rw [recordCost_cons] at hroom
    obtain ⟨full, w₁, w₁', new, hbuffer, h₁, hflush, hwrite, h₁', hp₁', hoptions, hle⟩ :=
      h.write_delivers g hp hsupported haccept (by omega) (packsRecord_cons hfits).1
    have hperform : w.perform (.write ⟨device, measurement⟩ time value) = (.ok (), w₁') :=
      perform_ok hwrite
    have hfits' := (packsRecord_cons hfits).2 w₁' hperform
    obtain ⟨others, w₂', w₃, hfields', hforM, hall, hbound⟩ :=
      ih h₁' hp₁' ha hnames (by rw [hoptions]; omega) hfits'
    obtain ⟨others₁, w₂, hfields, -, -⟩ := h₁.bufferFields_ok ha
    have hall' : w.performAll (recordWrites device time ((measurement, value) :: fields)) =
        (List.replicate (fields.length + 1) (.ok ()), w₃) := by
      rw [recordWrites, List.map_cons, performAll_cons hperform, ← recordWrites, hall]
      rfl
    cases full with
    | true =>
      -- The chunk of the first field was written before the other points were buffered. The record
      -- does it the other way round, which comes to the same.
      obtain ⟨w₃', hfields₁, hflush₂⟩ := h₁.bufferFields_swap hflush hfields (by
        intro field hfield heq
        exact hname (List.mem_map.2 ⟨field, hfield, (SeriesKey.mk.inj heq).2⟩))
      rw [hfields'] at hfields₁
      cases hfields₁
      refine ⟨⟨device, measurement⟩ :: others, w₂, w₃, ?_, ?_, hall', hbound⟩
      · rw [bufferFields, bind_ok hbuffer, bind_ok hfields]
        rfl
      · exact (bind_ok hflush₂).trans hforM
    | false =>
      cases hflush
      rw [hfields'] at hfields
      cases hfields
      refine ⟨others, w₂', w₃, ?_, hforM, hall', hbound⟩
      rw [bufferFields, bind_ok hbuffer, bind_ok hfields']
      rfl

/-- Of the writes of a record that is refused the first that fails does so with the same fault. -/
theorem firstFault?_writes (h : Holds o .active runs ledger w) (hp : P w.output.sink)
    (hsupported : o.registry.IsSupported) {fault : Fault}
    (hr : ledger.acceptRecord device time fields = .error fault)
    (hroom : w.bufferedBytes + recordCost fields ≤ w.options.maxBufferedBytes)
    (hfits : packsRecord device time fields w = true) :
    firstFault? (w.performAll (recordWrites device time fields)).1 = some fault := by
  induction fields generalizing w runs ledger with
  | nil => contradiction
  | cons field fields ih =>
    obtain ⟨measurement, value⟩ := field
    rw [Ledger.acceptRecord, List.foldlM_cons] at hr
    rw [recordWrites, List.map_cons, ← recordWrites]
    cases haccept : ledger.accept ⟨device, measurement⟩ time value with
    | error fault' =>
      rw [haccept] at hr
      -- This is the first field that is refused, and its write is refused with the same fault.
      cases hr
      have hkeeps : Keeps o .active ledger w := ⟨runs, h⟩
      have hperform : w.perform (.write ⟨device, measurement⟩ time value) = (.error fault, w) :=
        perform_error (hkeeps.write_refused haccept)
      rw [performAll_cons hperform]
      rfl
    | ok ledger₁ =>
      rw [haccept] at hr
      rw [recordCost_cons] at hroom
      obtain ⟨full, w₁, w₁', new, -, -, -, hwrite, h₁', hp₁', hoptions, hle⟩ :=
        h.write_delivers g hp hsupported haccept (by omega) (packsRecord_cons hfits).1
      have hperform : w.perform (.write ⟨device, measurement⟩ time value) = (.ok (), w₁') :=
        perform_ok hwrite
      have hfits' := (packsRecord_cons hfits).2 w₁' hperform
      rw [performAll_cons hperform]
      exact ih h₁' hp₁' hr (by rw [hoptions]; omega) hfits'

end Holds

omit [Sink σ] [Compressor] [Logarithm] in
/-- The measurements of a record that passes its checks are all different. -/
theorem nodup_of_checkFields {device : String} {seen : List String}
    {fields : List (String × Value)} (h : w.checkFields device time seen fields = .ok ()) :
    (fields.map Prod.fst).Nodup ∧ ∀ field ∈ fields, field.1 ∉ seen := by
  induction fields generalizing seen with
  | nil => exact ⟨.nil, fun _ hmem => (List.not_mem_nil hmem).elim⟩
  | cons field fields ih =>
    obtain ⟨measurement, value⟩ := field
    unfold checkFields at h
    -- A field is refused for an unknown series, for what its buffer refuses, or for a measurement
    -- seen before. The third is what keeps the measurements apart.
    split at h
    · contradiction
    split at h
    · contradiction
    split at h
    · contradiction
    rename_i hfresh
    obtain ⟨hnodup, hseen⟩ := ih h
    constructor
    · refine List.nodup_cons.2 ⟨?_, hnodup⟩
      intro hmem
      obtain ⟨field, hfield, heq⟩ := List.mem_map.1 hmem
      exact hseen field hfield (heq ▸ .head _)
    · intro field hfield
      rcases List.mem_cons.1 hfield with rfl | hfield
      · exact hfresh
      · exact fun hmem => hseen field hfield (.tail _ hmem)

/-- A record does what its writes do if all of them succeed. Otherwise it fails as the first of them
that fails, and does nothing. -/
theorem Reachable.writeRecord_eq_writes {P : σ → Prop} (g : Sink.Generous P) (h : w.Reachable)
    (hs : w.state = .active) (hp : P w.output.sink) (hsupported : w.registry.IsSupported)
    (device : String) (time : Int64) (fields : List (String × Value))
    (hroom : w.bufferedBytes + recordCost fields ≤ w.options.maxBufferedBytes)
    (hfits : packsRecord device time fields w = true) :
    w.perform (.writeRecord device time fields) =
      match firstFault? (w.performAll (recordWrites device time fields)).1 with
      | none => (.ok (), w.after (recordWrites device time fields))
      | some fault => (.error fault, w) := by
  obtain ⟨o, ledger, runs, hholds⟩ := h.keeps hs
  rw [hholds.registry_eq] at hsupported
  cases hl : ledger.acceptRecord device time fields with
  | error fault =>
    have hkeeps : Keeps o .active ledger w := ⟨runs, hholds⟩
    rw [hholds.firstFault?_writes g hp hsupported hl hroom hfits]
    exact perform_error (hkeeps.writeRecord_refused hl)
  | ok ledger' =>
    -- The checks that the record makes in advance are passed, as the ledger accepts all fields.
    have hcheck : w.checkFields device time [] fields = .ok () := by
      rw [(hholds.ahead device time).checkFields_eq, hl]
      rfl
    obtain ⟨full, w₁, w₂, hfields, hforM, hall, hbound⟩ := hholds.record_delivers g hp hsupported hl
      (nodup_of_checkFields hcheck).1 hroom hfits
    have hget : (get : Action σ (Writer σ)) w = .ok w w := rfl
    have hreceive : receive (.writeRecord device time fields) w = .ok () w₂ := by
      rw [receive, bind_ok (ensureOpen_ok hs), bind_ok hget, hcheck]
      exact (bind_ok hfields).trans hforM
    have hrecord : action (.writeRecord device time fields) w = .ok () w₂ := by
      show writeRecord device time fields w = .ok () w₂
      rw [writeRecord_eq_receive, bind_ok hreceive]
      exact relievePressure_idle hbound
    rw [perform_ok hrecord, Writer.after, hall, firstFault?_replicate]

end Writer

section

attribute [local instance] sampleLogarithm

/-- Every point fills a chunk. -/
def sampleEager : Options :=
  Options.withMaxChunkPoints {} 1

def sampleFields : List (String × Value) :=
  [("t", .int32 7), ("n", .text "TsFile")]

/-- A measurement that is named twice. -/
def sampleRepeated : List (String × Value) :=
  sampleFields ++ [("t", .int32 8)]

/-- What can be checked of a writer that was opened. -/
def sampleChecks (w : Writer MemorySink) : Bool :=
  Writer.packsRecord "root.a" 5 sampleFields w && Writer.packsRecord "root.a" 5 sampleRepeated w &&
    w.bufferedBytes + Writer.recordCost sampleFields ≤ w.options.maxBufferedBytes &&
    w.bufferedBytes + Writer.recordCost sampleRepeated ≤ w.options.maxBufferedBytes &&
    Writer.firstFault? (w.performAll (Writer.recordWrites "root.a" 5 sampleFields)).1 = none &&
    Writer.firstFault? (w.performAll (Writer.recordWrites "root.a" 5 sampleRepeated)).1 =
      some (.outOfOrder 5 5)

/-- Of the two records the writes of the second fail at the repeated measurement. -/
theorem sample_checks :
    (Writer.start MemorySink.unlimited sampleRegistry sampleEager).toOption.all sampleChecks =
      true := by
  decide +kernel

/-- One record is stored and the other is not. -/
theorem writeRecord_eq_writes_sample : ∃ w : Writer MemorySink,
    w.Reachable ∧ w.state = .active ∧ w.output.sink.IsUnlimited ∧ w.registry.IsSupported ∧
      w.perform (.writeRecord "root.a" 5 sampleFields) =
        (.ok (), w.after (Writer.recordWrites "root.a" 5 sampleFields)) ∧
      w.perform (.writeRecord "root.a" 5 sampleRepeated) = (.error (.outOfOrder 5 5), w) := by
  obtain ⟨w, hstart⟩ := MemorySink.generous.start_ok (t := MemorySink.unlimited) ⟨rfl, rfl, rfl⟩
    sampleRegistry sampleEager
  obtain ⟨runs, hholds⟩ := Writer.start_ok hstart
  have hreachable : w.Reachable := .opened hstart
  have hsink : w.output.sink.IsUnlimited :=
    Writer.start_generous MemorySink.generous hstart ⟨rfl, rfl, rfl⟩
  have hsupported : w.registry.IsSupported := by
    rw [hholds.registry_eq]
    decide +kernel
  have hchecks := sample_checks
  rw [hstart] at hchecks
  simp only [Except.toOption, Option.all_some, sampleChecks, Bool.and_eq_true, decide_eq_true_eq]
    at hchecks
  obtain ⟨⟨⟨⟨⟨hfits, hfits'⟩, hroom⟩, hroom'⟩, hnone⟩, hsome⟩ := hchecks
  have heq := Writer.Reachable.writeRecord_eq_writes MemorySink.generous hreachable hholds.state_eq
    hsink hsupported "root.a" 5 sampleFields hroom hfits
  have heq' := Writer.Reachable.writeRecord_eq_writes MemorySink.generous hreachable
    hholds.state_eq hsink hsupported "root.a" 5 sampleRepeated hroom' hfits'
  rw [hnone] at heq
  rw [hsome] at heq'
  exact ⟨w, hreachable, hholds.state_eq, hsink, hsupported, heq, heq'⟩

end

end SeriesFile
