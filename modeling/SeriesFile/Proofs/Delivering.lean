import SeriesFile.Proofs.Appending
import SeriesFile.Proofs.Limits

/-!
# Chunks on a sink that takes everything

What can keep a writer from writing a chunk is its sink, an encoding that cannot carry the type of
the values, or a size that does not fit the header of the chunk. On a sink that takes everything,
with supported schemas and points that fit (`Buffer.isPackable`), it always succeeds, for one series
(`Holds.flushSeries_delivers`) and for several (`Holds.forM_flushSeries_delivers`).

Such a sink goes on to take everything, whatever is received in between (`receive_sustains`).
-/

namespace SeriesFile

/-- Every series of a registry has an encoding that can carry its values. -/
def Registry.IsSupported (r : Registry) : Prop :=
  ∀ entry ∈ r.entries, entry.2.isSupported = true

instance (r : Registry) : Decidable r.IsSupported :=
  inferInstanceAs (Decidable (∀ entry ∈ r.entries, entry.2.isSupported = true))

/-- Whether the sizes of the chunk that is made of the points of a buffer fit the fields of its
header. -/
def Buffer.isPackable [Compressor] (b : Buffer) : Bool :=
  b.length < 2 ^ 32 &&
    match Page.encode b.schema.encoding b.times b.column with
    | .error _ => true
    | .ok page =>
      page.length < 2 ^ 32 &&
        match b.schema.compression.pack page with
        | .error _ => false
        | .ok payload => payload.length < 2 ^ 32

/-- Of a page that can be made, a buffer that is packable has a payload, and all three sizes fit. -/
theorem Buffer.payload_of_isPackable [Compressor] {b : Buffer} (h : b.isPackable = true)
    {page : Bytes} (hpage : Page.encode b.schema.encoding b.times b.column = .ok page) :
    b.times.length < 2 ^ 32 ∧ page.length < 2 ^ 32 ∧
      ∃ payload, b.schema.compression.pack page = .ok payload ∧ payload.length < 2 ^ 32 := by
  simp only [isPackable, hpage, Bool.and_eq_true, decide_eq_true_eq] at h
  obtain ⟨hcount, hraw, hpacked⟩ := h
  cases hpayload : b.schema.compression.pack page with
  | error fault =>
    rw [hpayload] at hpacked
    contradiction
  | ok payload =>
    rw [hpayload] at hpacked
    exact ⟨hcount, hraw, payload, rfl, of_decide_eq_true hpacked⟩

namespace Writer

variable {σ : Type} {w : Writer σ}

/-- Whether the chunk of a series can be made, if its buffer has points at all. -/
def packs [Compressor] (w : Writer σ) (key : SeriesKey) : Bool :=
  match w.buffers.find? key with
  | none => true
  | some b => b.isEmpty || b.isPackable

/-- What is asked of a series is asked of its buffer, and nothing of an empty one. -/
theorem packs_iff [Compressor] {key : SeriesKey} : w.packs key = true ↔
    ∀ b, w.buffers.find? key = some b → b.isEmpty = false → b.isPackable = true := by
  unfold packs
  cases w.buffers.find? key with
  | none => simp
  | some b => cases hempty : b.isEmpty <;> simp [hempty]

namespace Ends

variable {α : Type} {action : Action σ α} {Q Q' : α → Writer σ → Prop} {E E' : Writer σ → Prop}

/-- Two things that are known of an action are known together. -/
theorem and (h : Ends action w Q E) (h' : Ends action w Q' E') :
    Ends action w (fun a w' => Q a w' ∧ Q' a w') fun w' => E w' ∧ E' w' := by
  cases hw : action w with
  | ok a w' => exact .ok hw ⟨h.of_ok hw, h'.of_ok hw⟩
  | error fault w' => exact .error hw ⟨h.of_error hw, h'.of_error hw⟩

/-- An action that cannot fail ends well. -/
theorem exists_ok (h : Ends action w Q fun _ => False) : ∃ a w', action w = .ok a w' ∧ Q a w' := by
  cases hw : action w with
  | ok a w' => exact ⟨a, w', rfl, h.of_ok hw⟩
  | error fault w' => exact (h.of_error hw).elim

end Ends

/-! ### Chunks -/

variable [Sink σ] {P : σ → Prop} (g : Sink.Generous P)
include g

/-- Opening a writer leaves its sink as generous as it was. -/
theorem start_generous {sink : σ} {registry : Registry} {options : Options}
    (h : start sink registry options = .ok w) (hp : P sink) : P w.output.sink := by
  obtain ⟨s, hmagic, hs⟩ := g.put (s := Stream.start sink) hp Frame.magic
  obtain ⟨s', hversion, hs'⟩ := g.put hs [Frame.version]
  simp only [start, hmagic, hversion] at h
  cases h
  exact hs'

/-- A marker is taken like everything else. -/
theorem beginGroup_delivers (hp : P w.output.sink) {stream : Stream σ}
    (ho : w.output = .attached stream) (name : String) :
    Ends (beginGroup name) w (fun _ w' => P w'.output.sink) fun _ => False := by
  apply Ends.get
  rw [ho] at hp
  split
  · obtain ⟨after, hput, hafter⟩ := g.put hp (Frame.group name)
    have hw : put (Frame.group name) w = .ok () { w with output := .attached after } := by
      simp only [put, ho, hput]
    apply Ends.after hw
    exact .ok rfl hafter
  · apply Ends.pure
    rw [ho]
    exact hp

variable [Compressor]

/-- A buffer with points becomes a chunk: its encoding supports its type, its sizes fit, and the
sink takes it all. -/
theorem flushBuffer_delivers (hp : P w.output.sink) {stream : Stream σ}
    (ho : w.output = .attached stream) (key : SeriesKey) {b : Buffer} {schema : Schema}
    {flushed accepted : List Point} (hb : b.Keeps schema flushed accepted)
    (hsupported : schema.isSupported = true) (hfilled : b.isEmpty = false)
    (hfits : b.isPackable = true) :
    Ends (flushBuffer key b) w (fun _ w' => P w'.output.sink) fun _ => False := by
  have htimes : b.times ≠ [] := by
    intro hnil
    simp [Buffer.isEmpty, hnil] at hfilled
  have hencodes : b.schema.encoding.supports b.column.dataType := by
    rw [hb.typed, hb.stored]
    exact hsupported
  obtain ⟨page, hpage⟩ := Page.encode_supported hencodes hb.parallel
  obtain ⟨hcount, hraw, payload, hpayload, hpacked⟩ := Buffer.payload_of_isPackable hfits hpage
  -- So there is a chunk, and a generous sink takes it.
  obtain ⟨c, hbuild⟩ : ∃ c, Chunk.build key.measurement b.schema b.times b.column = .ok (some c) :=
    Chunk.build_of_pack htimes hpage hpayload hcount hraw hpacked
  rw [ho] at hp
  obtain ⟨after, happend, hafter⟩ := g.appendChunk hp hbuild
  have hw : flushBuffer key b w = .ok (some ⟨UInt64.ofNat stream.position, c.header.statistics⟩)
      { w with output := .attached after, buffers := w.buffers.insert key b.emptied } := by
    simp only [flushBuffer, ho, Buffer.flush, hfilled, happend, Bool.false_eq_true, if_false]
  exact .ok hw hafter

variable {o : Opening σ} {state : WriterState} {runs : List Run} {ledger : Ledger}

namespace Holds

/-- The three steps of writing a chunk each succeed. What the writer holds in between is known from
the general statements, and that the sink stays generous from the ones here; `Ends.and` joins
both. -/
theorem writeChunk_delivers (h : Holds o state runs ledger w) (hp : P w.output.sink)
    (hsupported : o.registry.IsSupported) {key : SeriesKey} (hfits : w.packs key = true) :
    Ends (writeChunk key) w (fun _ w' => P w'.output.sink) fun _ => False := by
  obtain ⟨stream, ho, -⟩ := h.wrote
  by_cases hfilled : w.Filled key
  · obtain ⟨b, hb, hpoints⟩ := hfilled
    obtain ⟨schema, accepted, hschema, -, hkeeps⟩ := h.keeps_buffer hb
    have hnames (hn : o.registry.NamesFit) := hn key (h.key_mem hb)
    apply Ends.get
    simp only [ho, Output.stream?, Option.isNone_some, hb, hpoints, Bool.false_eq_true, if_false]
    apply ((h.beginGroup_ends fun hn => (hnames hn).1).and (beginGroup_delivers g hp ho _)).mono
      (fun _ _ hq => hq) (fun _ hf => hf.2) |>.bind
    rintro - begun ⟨⟨hwrites, output, device, rfl⟩, hp₁⟩
    obtain ⟨stream₁, ho₁, -⟩ := hwrites.wrote
    apply ((hwrites.flushBuffer_ends hkeeps hpoints fun hn => (hnames hn).2).and
      (flushBuffer_delivers g hp₁ ho₁ key hkeeps
        (hsupported _ (SeriesTable.find?_eq_some_iff.1 hschema)) hpoints
        (packs_iff.1 hfits b hb hpoints))).mono (fun _ _ hq => hq) (fun _ hf => hf.2) |>.bind
    rintro - flushed ⟨⟨run, rfl, hrun, -, -, rfl, hwrites, output', rfl⟩, hp₂⟩
    rw [Run.length_before]
    apply Ends.modify
    refine (enter_ends ?_ (hrun ▸ hschema)).mono (fun _ entered hentered => ?_) fun _ hf => hf
    · exact h.indexed
    · obtain ⟨index, rfl, -⟩ := hentered
      exact hp₂
  · -- Without points there is nothing to write.
    exact .ok (writeChunk_idle ho hfilled) hp

/-- The chunk of a series is written, and its buffer is empty then. -/
theorem flushSeries_delivers (h : Holds o state runs ledger w) (hp : P w.output.sink)
    (hsupported : o.registry.IsSupported) {key : SeriesKey} (hfits : w.packs key = true) :
    ∃ w', flushSeries key w = .ok () w' ∧ P w'.output.sink ∧ Drained o state runs ledger w w' ∧
      ¬w'.Filled key := by
  obtain ⟨_, w', hw, hp'⟩ := (h.writeChunk_delivers g hp hsupported hfits).exists_ok
  have hflush : flushSeries key w = .ok () w' := by
    simp only [flushSeries, orAbort, hw]
  obtain ⟨hdrained, hempty⟩ := (h.flushSeries_ends key).of_ok hflush
  exact ⟨w', hflush, hp', hdrained, hempty⟩

/-- The chunks of several series are written one after another. -/
theorem forM_flushSeries_delivers (h : Holds o state runs ledger w) (hp : P w.output.sink)
    (hsupported : o.registry.IsSupported) {keys : List SeriesKey}
    (hfits : ∀ key ∈ keys, w.packs key = true) :
    ∃ w', keys.forM flushSeries w = .ok () w' ∧ P w'.output.sink ∧
      Drained o state runs ledger w w' ∧ ∀ key ∈ keys, ¬w'.Filled key := by
  have hends := h.forM_flushSeries_ends keys
  suffices hdelivers : ∃ w', keys.forM flushSeries w = .ok () w' ∧ P w'.output.sink by
    obtain ⟨w', hw, hp'⟩ := hdelivers
    exact ⟨w', hw, hp', hends.of_ok hw⟩
  clear hends
  -- By induction on the series: writing one leaves the buffers of the others as they were.
  induction keys generalizing w runs with
  | nil => exact ⟨w, rfl, hp⟩
  | cons key keys ih =>
    obtain ⟨w₁, hw, hp₁, ⟨new, hdrains, h₁⟩, -⟩ :=
      h.flushSeries_delivers g hp hsupported (hfits key (.head _))
    have hfits₁ : ∀ k ∈ keys, w₁.packs k = true := by
      intro k hk
      apply packs_iff.2
      intro b hb hfilled
      exact packs_iff.1 (hfits k (.tail _ hk)) b (hdrains.find?_of_filled hb hfilled) hfilled
    obtain ⟨w', hw', hp'⟩ := ih h₁ hp₁ hfits₁
    exact ⟨w', (bind_ok hw).trans hw', hp'⟩

end Holds

/-! ### Generous sinks stay so -/

/-- An action that succeeds leaves the sink with `P` if it had that before. -/
structure Sustains (P : σ → Prop) {α : Type} (action : Action σ α) : Prop where
  sink : ∀ {w : Writer σ} {a : α} {w' : Writer σ}, action w = .ok a w' → P w.output.sink →
    P w'.output.sink

namespace Sustains

omit g [Sink σ] [Compressor]

variable {α β : Type} {action : Action σ α} {next : α → Action σ β}

/-- Two actions that sustain `P` do so one after the other. -/
theorem bind (h : Sustains P action) (h' : ∀ a, Sustains P (next a)) :
    Sustains P (action >>= next) := by
  constructor
  intro w b w' hw hp
  obtain ⟨a, w₁, hfirst, hrest⟩ := of_bind_ok hw
  exact (h' a).sink hrest (h.sink hfirst hp)

theorem pure (a : α) : Sustains P (Pure.pure a : Action σ α) := by
  constructor
  intro w b w' hw hp
  cases hw
  exact hp

theorem get : Sustains P (MonadState.get : Action σ (Writer σ)) := by
  constructor
  intro w b w' hw hp
  cases hw
  exact hp

/-- What fails promises nothing. -/
theorem throw (fault : Fault) : Sustains P (MonadExcept.throw fault : Action σ α) := by
  constructor
  intro w b w' hw
  contradiction

theorem throw_bind (fault : Fault) :
    Sustains P ((MonadExcept.throw fault : Action σ α) >>= next) := by
  constructor
  intro w b w' hw
  obtain ⟨_, _, hthrow, -⟩ := of_bind_ok hw
  contradiction

/-- What leaves the output alone. -/
theorem modify {f : Writer σ → Writer σ} (hf : ∀ w, (f w).output = w.output) :
    Sustains P (modify f : Action σ PUnit) := by
  constructor
  intro w b w' hw hp
  cases hw
  rw [hf]
  exact hp

/-- By induction on the things gone through. -/
theorem forM {γ : Type} {keys : List γ} {each : γ → Action σ PUnit}
    (h : ∀ key, Sustains P (each key)) : Sustains P (keys.forM each) := by
  induction keys with
  | nil => exact pure _
  | cons key keys ih => exact (h key).bind fun _ => ih

end Sustains

omit [Compressor] in
/-- What is put on a generous sink leaves it generous; without a stream nothing is put. -/
theorem put_sustains (bytes : Bytes) : Sustains P (put bytes) := by
  constructor
  intro w done w' hw hp
  unfold put at hw
  cases ho : w.output with
  | released sink =>
    rw [ho] at hw
    contradiction
  | attached stream =>
    rw [ho] at hp
    obtain ⟨after, hput, hafter⟩ := g.put hp bytes
    simp only [ho, hput] at hw
    cases hw
    exact hafter

omit [Compressor] in
/-- A marker is put, or there is none to be put. -/
theorem beginGroup_sustains (name : String) : Sustains P (beginGroup name) := by
  apply Sustains.get.bind
  intro w
  split
  · exact (put_sustains g _).bind fun _ => .modify fun _ => rfl
  · exact .pure _

/-- Whether the buffer became a chunk or was empty, the sink is as generous as before. -/
theorem flushBuffer_sustains (key : SeriesKey) (b : Buffer) : Sustains P (flushBuffer key b) := by
  constructor
  intro w entry w' hw hp
  unfold flushBuffer at hw
  cases ho : w.output with
  | released sink =>
    rw [ho] at hw
    contradiction
  | attached stream =>
    rw [ho] at hw hp
    -- Appending sustains whatever it answers, so both answers are treated alike.
    have hflush : P (b.flush key.measurement stream).2.2.sink := by
      unfold Buffer.flush
      split
      · exact hp
      · have happend := g.appendChunk_sink hp key.measurement b.schema b.times b.column
        dsimp only
        split
        · rename_i heq
          rw [heq] at happend
          exact happend
        · rename_i heq
          rw [heq] at happend
          exact happend
    dsimp only at hw
    split at hw
    · cases hw
      exact hflush
    · contradiction

omit g [Sink σ] [Compressor] in
/-- The index is no matter of the sink. -/
theorem enter_sustains (key : SeriesKey) (chunk : ChunkEntry) : Sustains P (enter key chunk) := by
  constructor
  intro w done w' hw hp
  unfold enter at hw
  split at hw
  · cases hw
    exact hp
  · split at hw
    · cases hw
      exact hp
    · contradiction

/-- A chunk that is written sustains step by step, and success means that nothing was given up. -/
theorem flushSeries_sustains (key : SeriesKey) : Sustains P (flushSeries key) := by
  have hchunk : Sustains P (writeChunk key) := by
    apply Sustains.get.bind
    intro w
    dsimp only
    split
    · exact .throw_bind _
    split
    · exact .pure _
    split
    · exact .pure _
    apply (beginGroup_sustains g key.device).bind
    intro begun
    apply (flushBuffer_sustains g key _).bind
    intro entry
    split
    · exact .pure _
    · exact .bind (.modify fun _ => rfl) fun _ => enter_sustains _ _
  constructor
  intro w done w' hw
  exact hchunk.sink (of_orAbort_ok hw)

omit g [Sink σ] [Compressor] in
/-- A point that is buffered stays in memory. -/
theorem buffer_sustains (key : SeriesKey) (time : Int64) (value : Value) :
    Sustains P (buffer key time value) := by
  have hbuffer : Sustains P (bufferOf key) := by
    constructor
    intro w b w' hw hp
    unfold bufferOf at hw
    split at hw
    · cases hw
      exact hp
    · contradiction
  apply hbuffer.bind
  intro b
  split
  · exact .throw _
  · exact .bind (.modify fun _ => rfl) fun _ => Sustains.get.bind fun _ => .pure _

omit g [Sink σ] [Compressor] in
/-- Field by field, in memory. -/
theorem bufferFields_sustains (device : String) (time : Int64) (fields : List (String × Value)) :
    Sustains P (bufferFields device time fields) := by
  induction fields with
  | nil => exact .pure _
  | cons field fields ih =>
    exact (buffer_sustains _ time _).bind fun _ => ih.bind fun _ => .pure _

/-- Points that are received leave a sink that takes everything as it was. -/
theorem receive_sustains (op : Operation) : Sustains P (receive op) := by
  -- Being open is only looked at; what hands anything on is the flush of a series that is full.
  have hopen : Sustains P ensureOpen := by
    constructor
    intro w done w' hw hp
    unfold ensureOpen at hw
    split at hw
    · cases hw
      exact hp
    · contradiction
  cases op with
  | write key time value =>
    apply hopen.bind
    intro done
    apply (buffer_sustains key time value).bind
    intro full
    split
    · exact flushSeries_sustains g key
    · exact .pure _
  | writeRecord device time fields =>
    apply hopen.bind
    intro done
    apply Sustains.get.bind
    intro w
    split
    · exact .throw _
    · exact (bufferFields_sustains device time fields).bind fun _ =>
        .forM (flushSeries_sustains g)
  | flush | close | abort | drop => exact .pure _

end Writer

end SeriesFile
