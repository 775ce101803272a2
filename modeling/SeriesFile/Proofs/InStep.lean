import SeriesFile.Proofs.Refusals
import SeriesFile.Proofs.Unsealed

/-!
# Writers in step

Two writers that differ only in their sinks (`Writer.on`) do the same as long as the sinks do: they
give the same answers and go on differing only in their sinks. How the sinks are related, and what
is left of that once the first of them failed, is given by a `Sink.Pairing`. Everything else a
writer does is independent of its sink, so every action keeps two writers in step or breaks off with
the sink of the first (`InStep`), and so do runs of operations (`Reachable.performAll_on`).
-/

namespace SeriesFile

variable {σ τ : Type} {α β ε : Type}

/-! ### The same on another sink -/

namespace Stream

/-- The stream with another sink. -/
def on (s : Stream σ) (t : τ) : Stream τ :=
  ⟨t, s.position, s.register⟩

/-- The same stream, on the sink it is said to be on. -/
@[simp]
theorem sink_on (s : Stream σ) (t : τ) : (s.on t).sink = t := rfl

end Stream

/-- The output with another sink. -/
def Output.on (t : τ) : Output σ → Output τ
  | .attached stream => .attached (stream.on t)
  | .released _ => .released t

namespace Writer

/-- The writer with another sink. -/
def on (w : Writer σ) (t : τ) : Writer τ where
  output := w.output.on t
  registry := w.registry
  options := w.options
  buffers := w.buffers
  index := w.index
  device := w.device
  bufferedBytes := w.bufferedBytes
  pointsWritten := w.pointsWritten
  chunksFlushed := w.chunksFlushed
  state := w.state

/-- A writer on another sink is on that sink. -/
@[simp]
theorem sink_on (w : Writer σ) (t : τ) : (w.on t).output.sink = t := by
  obtain ⟨stream | sink, _⟩ := w <;> rfl

/-- Only the last sink counts. -/
theorem on_on {υ : Type} (w : Writer σ) (t : τ) (u : υ) : (w.on t).on u = w.on u := by
  obtain ⟨stream | sink, _⟩ := w <;> rfl

/-- On its own sink a writer is what it was. -/
theorem on_back (w : Writer σ) (t : τ) : (w.on t).on w.output.sink = w := by
  obtain ⟨stream | sink, _⟩ := w <;> rfl

/-- The writer that an action ended with. -/
def ended : EStateM.Result Fault (Writer σ) α → Writer σ
  | .ok _ w => w
  | .error _ w => w

/-- The sink after a writer was opened on it, or could not be. -/
def startedSink : Except (Fault × σ) (Writer σ) → σ
  | .ok opened => opened.output.sink
  | .error (_, sink) => sink

/-- The same end with another sink. -/
def endedOn (t : τ) : EStateM.Result Fault (Writer σ) α → EStateM.Result Fault (Writer τ) α
  | .ok a w => .ok a (w.on t)
  | .error fault w => .error fault (w.on t)

/-- What an action ended with on another sink is the writer on that sink. -/
@[simp]
theorem ended_endedOn (t : τ) (r : EStateM.Result Fault (Writer σ) α) :
    ended (endedOn t r) = (ended r).on t := by
  cases r <;> rfl

end Writer

/-! ### Sinks that belong together -/

/-- An answer and a stream after it: the same answer on another sink, or a failure of the first. -/
inductive Stream.InStep (same cut : σ → τ → Prop) :
    Except ε α × Stream σ → Except ε α × Stream τ → Prop
  | same {answer : Except ε α} {s : Stream σ} {t : τ} (h : same s.sink t) :
      InStep same cut (answer, s) (answer, s.on t)
  | cut {e : ε} {s : Stream σ} {other : Except ε α × Stream τ} (h : cut s.sink other.2.sink) :
      InStep same cut (.error e, s) other

/-- Two kinds of sinks that are used in the same way. As long as the first does not fail they stay
related by `same`. Once it has failed they are related by `cut`, whatever the second takes later. -/
structure Sink.Pairing [Sink σ] [Sink τ] (same cut : σ → τ → Prop) : Prop where
  writeAll : ∀ {s : Stream σ} {t : τ} (bytes : Bytes), same s.sink t →
    Stream.InStep same cut (s.writeAll bytes) ((s.on t).writeAll bytes)
  flush : ∀ {s : Stream σ} {t : τ}, same s.sink t → Stream.InStep same cut s.flush (s.on t).flush
  sync : ∀ {s : Stream σ} {t : τ}, same s.sink t → Stream.InStep same cut s.sync (s.on t).sync
  /-- Whoever gives up asks for a flush and does not look at the answer. -/
  release : ∀ {s : σ} {t : τ}, same s t → same (Sink.flush s).2 (Sink.flush t).2
  release_cut : ∀ {s : σ} {t : τ}, cut s t → cut (Sink.flush s).2 t
  grow : ∀ {s : σ} {t t' : τ}, cut s t → Sink.accepted t <+: Sink.accepted t' → cut s t'

namespace Writer

/-- How an action ends on two sinks: in the same way, or with a failure of the first. -/
inductive Parallel (same cut : σ → τ → Prop) :
    EStateM.Result Fault (Writer σ) α → EStateM.Result Fault (Writer τ) α → Prop
  | same {r : EStateM.Result Fault (Writer σ) α} {t : τ} (h : same (ended r).output.sink t) :
      Parallel same cut r (endedOn t r)
  | cut {fault : Fault} {w : Writer σ} {other : EStateM.Result Fault (Writer τ) α}
      (failed : fault.isRefusal = false) (h : cut w.output.sink (ended other).output.sink) :
      Parallel same cut (.error fault w) other

/-- Two actions that keep writers in step; the second never takes back what its sink took. -/
structure InStep [Sink τ] (same cut : σ → τ → Prop) (action : Action σ α) (other : Action τ α) :
    Prop where
  parallel : ∀ {w : Writer σ} {t : τ}, same w.output.sink t →
    Parallel same cut (action w) (other (w.on t))
  grows : ∀ (w : Writer σ) (t : τ),
    Sink.accepted t <+: Sink.accepted (ended (other (w.on t))).output.sink

/-! ### Composing actions -/

namespace InStep

section

variable [Sink τ] {same cut : σ → τ → Prop} {action : Action σ α} {other : Action τ α}
  {next : α → Action σ β} {next' : α → Action τ β}

/-- What an action does without its sink, it does on any other too. -/
theorem of_quiet (h : ∀ (w : Writer σ) (t : τ), other (w.on t) = endedOn t (action w))
    (ho : ∀ w : Writer σ, (ended (action w)).output = w.output) :
    InStep same cut action other where
  parallel {w t} hsame := by
    rw [h]
    exact .same (by rwa [ho])
  grows w t := by
    simp only [h, ended_endedOn, sink_on, List.prefix_rfl]

theorem pure (a : α) : InStep same cut (Pure.pure a : Action σ α) (Pure.pure a) :=
  of_quiet (fun _ _ => rfl) fun _ => rfl

/-- A fault that has nothing to do with the sink comes on both. -/
theorem throw (fault : Fault) :
    InStep same cut (throw fault : Action σ α) (MonadExcept.throw fault) :=
  of_quiet (fun _ _ => rfl) fun _ => rfl

/-- A change of the writer that leaves its output alone is the same change on both. -/
theorem modify {f : Writer σ → Writer σ} {g : Writer τ → Writer τ}
    (h : ∀ (w : Writer σ) (t : τ), g (w.on t) = (f w).on t) (ho : ∀ w, (f w).output = w.output) :
    InStep same cut (modify f : Action σ PUnit) (modify g) :=
  of_quiet (fun w t => congrArg (EStateM.Result.ok PUnit.unit) (h w t)) ho

/-- What is read of the writer is the same on both sinks. -/
theorem get {next : Writer σ → Action σ β} {next' : Writer τ → Action τ β}
    (h : ∀ (w : Writer σ) (t : τ), InStep same cut (next w) (next' (w.on t))) :
    InStep same cut (MonadState.get >>= next) (MonadState.get >>= next') where
  parallel {w t} hsame := (h w t).parallel hsame
  grows w t := (h w t).grows w t

variable [Sink σ]

/-- After a failure of the first sink the second action may go on, for it only adds bytes. -/
theorem bind (p : Sink.Pairing same cut) (h : InStep same cut action other)
    (hnext : ∀ a, InStep same cut (next a) (next' a)) :
    InStep same cut (action >>= next) (other >>= next') where
  parallel {w t} hsame := by
    have hfirst := h.parallel hsame
    generalize hw : action w = r at hfirst
    generalize hv : other (w.on t) = r' at hfirst
    -- Either both ended alike, or the first broke off and the second may have gone on.
    cases hfirst with
    | same hsame' =>
      cases r with
      | ok a w' =>
        rw [bind_ok hw, bind_ok hv]
        exact (hnext a).parallel hsame'
      | error fault w' =>
        rw [bind_error hw, bind_error hv]
        exact .same hsame'
    | @cut fault w' _ failed hcut =>
      rw [bind_error hw]
      refine .cut failed ?_
      cases r' with
      | ok a v =>
        rw [bind_ok hv, ← v.on_back w'.output.sink]
        -- What the second does then only adds bytes, and the cut outlasts those.
        exact p.grow hcut ((hnext a).grows _ _)
      | error fault' v =>
        rw [bind_error hv]
        exact hcut
  grows w t := by
    have hfirst := h.grows w t
    cases hv : other (w.on t) with
    | ok a v =>
      rw [hv] at hfirst
      rw [bind_ok hv, ← v.on_back w.output.sink]
      exact hfirst.trans ((hnext a).grows _ _)
    | error fault v =>
      rw [hv] at hfirst
      rw [bind_error hv]
      exact hfirst

/-- Series after series: by induction on their list, which is the same for both. -/
theorem forM (p : Sink.Pairing same cut) {action : SeriesKey → Action σ PUnit}
    {other : SeriesKey → Action τ PUnit} (h : ∀ key, InStep same cut (action key) (other key))
    (keys : List SeriesKey) : InStep same cut (keys.forM action) (keys.forM other) := by
  induction keys with
  | nil => exact pure _
  | cons key keys ih => exact (h key).bind p fun _ => ih

end

end InStep

/-! ### Giving up -/

section

variable [Sink σ] [Sink τ] {same cut : σ → τ → Prop} (p : Sink.Pairing same cut)
include p

/-- Writers in step give up in step: each lets its own sink go, after a last flush. -/
theorem abort_on {w : Writer σ} {t : τ} (h : same w.output.sink t) :
    ∃ t', same w.abort.output.sink t' ∧ (w.on t).abort = w.abort.on t' := by
  -- Whether there is anything left to give up is no matter of the sink.
  by_cases hterminal : w.state.isTerminal = true
  · refine ⟨t, ?_, ?_⟩
    · rwa [abort, if_pos hterminal]
    · rw [abort, abort, if_pos hterminal]
      exact if_pos hterminal
  · have habort : w.abort = w.release := if_neg hterminal
    have habort' : (w.on t).abort = (w.on t).release := if_neg hterminal
    rw [habort, habort']
    obtain ⟨stream | sink, _⟩ := w
    · exact ⟨(Sink.flush t).2, p.release h, rfl⟩
    · exact ⟨t, h, rfl⟩

/-- Once the first sink has failed, letting it go leaves it failed. -/
theorem abort_cut {w : Writer σ} {t : τ} (h : cut w.output.sink t) :
    cut w.abort.output.sink t := by
  by_cases hterminal : w.state.isTerminal = true
  · rwa [abort, if_pos hterminal]
  · have habort : w.abort = w.release := if_neg hterminal
    rw [habort]
    obtain ⟨stream | sink, _⟩ := w
    · exact p.release_cut h
    · exact h

/-- Giving up keeps writers in step, and those that are not stay as they are. -/
theorem InStep.orAbort {action : Action σ α} {other : Action τ α}
    (h : InStep same cut action other) : InStep same cut (orAbort action) (orAbort other) where
  parallel {w t} hsame := by
    have hfirst := h.parallel hsame
    unfold Writer.orAbort
    generalize action w = r at hfirst
    generalize other (w.on t) = r' at hfirst
    cases hfirst with
    | same hsame' =>
      cases r with
      | ok a w' => exact .same hsame'
      | error fault w' =>
        obtain ⟨t', hsame', habort⟩ := abort_on p (w := w') hsame'
        show Parallel same cut (.error fault w'.abort) (.error fault (w'.on _).abort)
        rw [habort]
        exact .same (r := .error fault w'.abort) hsame'
    | @cut fault w' _ failed hcut =>
      -- The second writer may have gone on, and may now give up too: neither takes bytes back.
      refine .cut failed (abort_cut p (p.grow hcut ?_))
      cases r' with
      | ok a v => exact List.prefix_rfl
      | error fault' v =>
        show Sink.accepted v.output.sink <+: Sink.accepted v.abort.output.sink
        simp only [accepted_abort, List.prefix_rfl]
  grows w t := by
    have hgrows := h.grows w t
    unfold Writer.orAbort
    cases hv : other (w.on t) with
    | ok a v =>
      rw [hv] at hgrows
      exact hgrows
    | error fault v =>
      rw [hv] at hgrows
      show Sink.accepted t <+: Sink.accepted v.abort.output.sink
      rw [accepted_abort]
      exact hgrows

end

/-! ### Bytes -/

end Writer

namespace Stream

variable [Sink σ] [Sink τ] {same cut : σ → τ → Prop}

omit [Sink σ] in
/-- A stream that goes on has a sink that has accepted more. -/
theorem Extends.accepted_prefix {s s' : Stream τ} {bytes : Bytes} (h : Extends s s' bytes) :
    Sink.accepted s.sink <+: Sink.accepted s'.sink :=
  ⟨bytes, h.accepted.symm⟩

/-- By the same bytes the same stream becomes the same, whatever the sinks are. -/
theorem Extends.eq_on {s s' : Stream σ} {t : τ} {v : Stream τ} {bytes : Bytes}
    (h : Extends s s' bytes) (h' : Extends (s.on t) v bytes) : v = s'.on v.sink := by
  obtain ⟨sink, position, register⟩ := v
  have hposition : position = s'.position := h'.position.trans h.position.symm
  have hregister : register = s'.register := h'.register.trans h.register.symm
  rw [hposition, hregister]
  rfl

omit [Sink σ] in
/-- Putting bytes takes none back, whether it fails or not. -/
theorem accepted_prefix_put (s : Stream τ) (bytes : Bytes) :
    Sink.accepted s.sink <+: Sink.accepted (s.put bytes).2.sink := by
  obtain ⟨front, -, he, -⟩ := s.put_extends bytes
  exact he.accepted_prefix

/-- Putting is writing all, with another fault. -/
theorem InStep.put (p : Sink.Pairing same cut) {s : Stream σ} {t : τ} (bytes : Bytes)
    (h : same s.sink t) : InStep same cut (s.put bytes) ((s.on t).put bytes) := by
  have hall := p.writeAll bytes h
  unfold Stream.put
  generalize s.writeAll bytes = r at hall
  generalize (s.on t).writeAll bytes = r' at hall
  cases hall with
  | @same answer s' t' hsame =>
    cases answer with
    | ok done => exact .same hsame
    | error cause => exact .same hsame
  | cut hcut =>
    obtain ⟨cause | done, v⟩ := r'
    · exact .cut hcut
    · exact .cut hcut

variable [Compressor]

omit [Sink σ] in
/-- Appending a chunk takes no bytes back, whatever becomes of the chunk. -/
theorem accepted_prefix_appendChunk (s : Stream τ) (measurement : String) (schema : Schema)
    (times : List Int64) (column : Column) :
    Sink.accepted s.sink <+:
      Sink.accepted (s.appendChunk measurement schema times column).2.sink := by
  rcases h : s.appendChunk measurement schema times column with ⟨fault | entry | entry, s'⟩
  · rcases appendChunk_error h with rfl | ⟨c, front, -, -, he⟩
    · exact List.prefix_rfl
    · exact he.accepted_prefix
  · simp only [appendChunk, appendChunk_none h, Prod.mk.injEq, true_and] at h
    exact h ▸ List.prefix_rfl
  · obtain ⟨c, -, he, -⟩ := appendChunk_ok h
    exact he.accepted_prefix

/-- A chunk is made without the sink and then written in two pieces, its head and its payload. -/
theorem InStep.appendChunk (p : Sink.Pairing same cut) {s : Stream σ} {t : τ} (h : same s.sink t)
    (measurement : String) (schema : Schema) (times : List Int64) (column : Column) :
    InStep same cut (s.appendChunk measurement schema times column)
      ((s.on t).appendChunk measurement schema times column) := by
  unfold Stream.appendChunk
  -- What the chunk is made of is the same, so both have one or neither has.
  cases Chunk.build measurement schema times column with
  | error fault => exact .same h
  | ok chunk =>
    cases chunk with
    | none => exact .same h
    | some chunk =>
      have hhead := InStep.put p (Frame.chunkMarker :: chunk.header.write) h
      dsimp only
      generalize s.put (Frame.chunkMarker :: chunk.header.write) = r at hhead
      generalize (s.on t).put (Frame.chunkMarker :: chunk.header.write) = r' at hhead
      cases hhead with
      | @same answer s' t' hsame =>
        cases answer with
        | error fault => exact .same hsame
        | ok done =>
          have hpayload := InStep.put p chunk.payload hsame
          dsimp only
          generalize s'.put chunk.payload = r at hpayload
          generalize (s'.on t').put chunk.payload = r' at hpayload
          cases hpayload with
          | @same answer s'' t'' hsame =>
            cases answer with
            | error fault => exact .same hsame
            | ok done => exact .same hsame
          | cut hcut =>
            obtain ⟨fault | done, v⟩ := r'
            · exact .cut hcut
            · exact .cut hcut
      | cut hcut =>
        -- The second stream may not have failed in the head, and goes on with the payload.
        refine .cut (p.grow hcut ?_)
        obtain ⟨fault | done, v⟩ := r'
        · exact List.prefix_rfl
        · have hgrows := accepted_prefix_put v chunk.payload
          dsimp only
          generalize v.put chunk.payload = r at hgrows
          obtain ⟨fault | done, v'⟩ := r
          · exact hgrows
          · exact hgrows

end Stream

namespace Writer

variable [Sink τ] {same cut : σ → τ → Prop}

/-- Putting bytes is asking for them to be written. -/
theorem put_eq_ask [Sink σ] (bytes : Bytes) :
    (put bytes : Action σ Unit) = ask fun s => s.writeAll bytes := by
  funext w
  unfold put ask
  cases w.output with
  | released sink => rfl
  | attached stream =>
    simp only [Stream.put]
    rcases stream.writeAll bytes with ⟨cause | done, s⟩ <;> rfl

namespace InStep

/-- Asking keeps writers in step if it keeps their streams so. -/
theorem ask {request : Stream σ → Except IoCause Unit × Stream σ}
    {other : Stream τ → Except IoCause Unit × Stream τ}
    (h : ∀ {s : Stream σ} {t : τ}, same s.sink t →
      Stream.InStep same cut (request s) (other (s.on t)))
    (hgrows : ∀ s : Stream τ, Sink.accepted s.sink <+: Sink.accepted (other s).2.sink) :
    InStep same cut (Writer.ask request) (Writer.ask other) where
  parallel {w t} hsame := by
    -- Both have a stream or neither has.
    obtain ⟨stream | sink, registry, _⟩ := w
    · have hstream := h (s := stream) hsame
      simp only [Writer.ask, on, Output.on]
      generalize request stream = r at hstream
      generalize other (stream.on t) = r' at hstream
      cases hstream with
      | @same answer s t' hsame' =>
        cases answer with
        | ok done => exact .same (r := .ok _ _) hsame'
        | error cause => exact .same (r := .error _ _) hsame'
      | cut hcut =>
        refine .cut rfl ?_
        obtain ⟨cause | done, v⟩ := r'
        · exact hcut
        · exact hcut
    · exact .same (r := .error _ _) hsame
  grows w t := by
    obtain ⟨stream | sink, registry, _⟩ := w
    · have hstream := hgrows (stream.on t)
      simp only [Writer.ask, on, Output.on]
      generalize other (stream.on t) = r' at hstream
      obtain ⟨cause | done, v⟩ := r'
      · exact hstream
      · exact hstream
    · exact List.prefix_rfl

variable [Sink σ] (p : Sink.Pairing same cut)
include p

/-- Bytes are written by writers that have a stream. -/
theorem put (bytes : Bytes) :
    InStep same cut (Writer.put bytes : Action σ Unit) (Writer.put bytes) := by
  rw [put_eq_ask, put_eq_ask]
  refine ask (fun h => p.writeAll bytes h) fun s => ?_
  obtain ⟨front, -, he, -⟩ := s.writeAll_extends bytes
  exact he.accepted_prefix

/-- The tail is put where the footer began, and that place is the same on both. -/
theorem putTail (footerLength : Nat) :
    InStep same cut (Writer.putTail footerLength : Action σ Unit)
      (Writer.putTail footerLength) where
  parallel {w t} hsame := by
    obtain ⟨stream | sink, registry, _⟩ := w
    · exact (put p _).parallel hsame
    · exact .same (r := .error _ _) hsame
  grows w t := by
    obtain ⟨stream | sink, registry, _⟩ := w
    · exact (put p _).grows ⟨.attached stream, registry, _, _, _, _, _, _, _, _⟩ t
    · exact List.prefix_rfl

/-- A marker is due for both or for neither, since they remember the same device. -/
theorem beginGroup (device : String) :
    InStep same cut (Writer.beginGroup device : Action σ Unit) (Writer.beginGroup device) := by
  refine get fun w t => ?_
  by_cases h : w.device ≠ some device
  · have h' : (w.on t).device ≠ some device := h
    rw [if_pos h, if_pos h']
    exact (put p _).bind p fun _ => modify (fun _ _ => rfl) fun _ => rfl
  · have h' : ¬(w.on t).device ≠ some device := h
    rw [if_neg h, if_neg h']
    exact pure _

end InStep

/-! ### Writing chunks -/

namespace InStep

/-- The index is kept beside the sink. -/
theorem enter (key : SeriesKey) (chunk : ChunkEntry) :
    InStep same cut (Writer.enter key chunk : Action σ Unit) (Writer.enter key chunk) := by
  refine of_quiet (fun w t => ?_) fun w => ?_
  · have hindex : (w.on t).index = w.index := rfl
    unfold Writer.enter
    rw [hindex]
    cases w.index.find? key with
    | none => rfl
    | some entry =>
      dsimp only
      cases entry.push chunk <;> rfl
  · unfold Writer.enter
    split
    · rfl
    · split <;> rfl

variable [Sink σ] [Compressor] (p : Sink.Pairing same cut)
include p

/-- A buffer becomes a chunk on both, or breaks off with the first sink. -/
theorem flushBuffer (key : SeriesKey) (b : Buffer) :
    InStep same cut (Writer.flushBuffer key b : Action σ (Option ChunkEntry))
      (Writer.flushBuffer key b) where
  parallel {w t} hsame := by
    obtain ⟨stream | sink, registry, _⟩ := w
    · -- An empty buffer does not get as far as the sink.
      cases hempty : b.isEmpty with
      | true =>
        simp only [Writer.flushBuffer, on, Output.on, Buffer.flush, hempty, if_true]
        exact .same (r := .ok _ _) hsame
      | false =>
        have hstream := Stream.InStep.appendChunk p hsame key.measurement b.schema b.times b.column
        simp only [Writer.flushBuffer, on, Output.on, Buffer.flush, hempty, Bool.false_eq_true,
          if_false]
        rcases happend : stream.appendChunk key.measurement b.schema b.times b.column with
          ⟨fault | entry, s⟩
        · -- What breaks off here has failed: after a refusal the writer would go on.
          have hfault := Stream.isRefusal_of_appendChunk happend
          rw [happend] at hstream
          generalize (stream.on t).appendChunk _ _ _ _ = r' at hstream
          cases hstream with
          | same hsame' => exact .same (r := .error _ _) hsame'
          | cut hcut =>
            refine .cut hfault ?_
            obtain ⟨fault' | entry, v⟩ := r'
            · exact hcut
            · exact hcut
        · rw [happend] at hstream
          generalize (stream.on t).appendChunk _ _ _ _ = r' at hstream
          cases hstream with
          | same hsame' => exact .same (r := .ok _ _) hsame'
    · exact .same (r := .error _ _) hsame
  grows w t := by
    obtain ⟨stream | sink, registry, _⟩ := w
    · cases hempty : b.isEmpty with
      | true =>
        simp only [Writer.flushBuffer, on, Output.on, Buffer.flush, hempty, if_true]
        exact List.prefix_rfl
      | false =>
        have hstream := (stream.on t).accepted_prefix_appendChunk key.measurement b.schema b.times
          b.column
        simp only [Writer.flushBuffer, on, Output.on, Buffer.flush, hempty, Bool.false_eq_true,
          if_false]
        generalize (stream.on t).appendChunk _ _ _ _ = r at hstream
        obtain ⟨fault | entry, v⟩ := r
        · exact hstream
        · exact hstream
    · exact List.prefix_rfl

/-- A chunk begins with the marker of its device and is entered when it has been written. -/
theorem writeChunk (key : SeriesKey) :
    InStep same cut (Writer.writeChunk key : Action σ Unit) (Writer.writeChunk key) := by
  refine get fun w t => ?_
  have hnone : (w.on t).output.stream?.isNone = w.output.stream?.isNone := by
    obtain ⟨stream | sink, _⟩ := w <;> rfl
  have hbuffers : (w.on t).buffers = w.buffers := rfl
  rw [hnone, hbuffers]
  cases w.output.stream?.isNone with
  | true => exact of_quiet (fun _ _ => rfl) fun _ => rfl
  | false =>
    cases w.buffers.find? key with
    | none => exact pure _
    | some b =>
      cases hempty : b.isEmpty with
      | true =>
        simp only [hempty, if_true]
        exact pure _
      | false =>
        simp only [hempty, Bool.false_eq_true, if_false]
        -- The marker of the device, the chunk, then its entry: three steps, each in step by itself.
        refine (beginGroup p _).bind p fun _ => (flushBuffer p key b).bind p fun chunk => ?_
        cases chunk with
        | none => exact pure _
        | some chunk =>
          refine bind p ?_ fun _ => enter key chunk
          exact modify (fun _ _ => rfl) fun _ => rfl

/-- A chunk that breaks off ends with giving up, which is done in step too. -/
theorem flushSeries (key : SeriesKey) :
    InStep same cut (Writer.flushSeries key : Action σ Unit) (Writer.flushSeries key) :=
  orAbort p (writeChunk p key)

theorem flushAll : InStep same cut (Writer.flushAll : Action σ Unit) Writer.flushAll :=
  get fun _ _ => forM p (flushSeries p) _

/-- By induction on how often a buffer may still be written: the largest is the same for both, as
sizes are counted beside the sink. -/
theorem flushLargest (limit : Nat) :
    InStep same cut (Writer.flushLargest limit : Action σ Unit) (Writer.flushLargest limit) := by
  induction limit with
  | zero => exact pure _
  | succ limit ih =>
    refine get fun w t => ?_
    by_cases hbound : w.bufferedBytes ≤ w.options.maxBufferedBytes
    · have hbound' : (w.on t).bufferedBytes ≤ (w.on t).options.maxBufferedBytes := hbound
      rw [if_pos hbound, if_pos hbound']
      exact pure _
    · have hbound' : ¬(w.on t).bufferedBytes ≤ (w.on t).options.maxBufferedBytes := hbound
      have hlargest : (w.on t).largest? = w.largest? := rfl
      rw [if_neg hbound, if_neg hbound', hlargest]
      cases w.largest? with
      | none => exact pure _
      | some key => exact (flushSeries p key).bind p fun _ => ih

/-- What is buffered, and how much may be, is known without the sink. -/
theorem relievePressure :
    InStep same cut (Writer.relievePressure : Action σ Unit) Writer.relievePressure := by
  refine get fun w t => ?_
  by_cases hbound : w.bufferedBytes ≤ w.options.maxBufferedBytes
  · have hbound' : (w.on t).bufferedBytes ≤ (w.on t).options.maxBufferedBytes := hbound
    rw [if_pos hbound, if_pos hbound']
    exact pure _
  · have hbound' : ¬(w.on t).bufferedBytes ≤ (w.on t).options.maxBufferedBytes := hbound
    have hoptions : (w.on t).options = w.options := rfl
    rw [if_neg hbound, if_neg hbound', hoptions]
    cases w.options.pressurePolicy with
    | flushAll => exact flushAll p
    | flushLargest => exact flushLargest p _

end InStep

/-! ### Points -/

namespace InStep

/-- The stage is the same on both. -/
theorem ensureOpen : InStep same cut (Writer.ensureOpen : Action σ Unit) Writer.ensureOpen := by
  refine of_quiet (fun w t => ?_) fun w => ?_
  · by_cases hactive : w.state = .active
    · rw [ensureOpen_ok hactive]
      exact ensureOpen_ok hactive
    · rw [ensureOpen_error hactive]
      exact ensureOpen_error hactive
  · unfold Writer.ensureOpen
    split <;> rfl

theorem bufferOf (key : SeriesKey) :
    InStep same cut (Writer.bufferOf key : Action σ Buffer) (Writer.bufferOf key) := by
  refine of_quiet (fun w t => ?_) fun w => ?_
  · have hbuffers : (w.on t).buffers = w.buffers := rfl
    unfold Writer.bufferOf
    rw [hbuffers]
    cases w.buffers.find? key <;> rfl
  · unfold Writer.bufferOf
    split <;> rfl

variable [Sink σ] [Compressor] (p : Sink.Pairing same cut)
include p

omit [Compressor] in
/-- A point is buffered or refused before the sink is touched. -/
theorem buffer (key : SeriesKey) (time : Int64) (value : Value) :
    InStep same cut (Writer.buffer key time value : Action σ Bool)
      (Writer.buffer key time value) := by
  refine (bufferOf key).bind p fun b => ?_
  cases b.append time value with
  | error fault => exact throw fault
  | ok appended =>
    refine bind p ?_ fun _ => get fun w t => pure _
    exact modify (fun _ _ => rfl) fun _ => rfl

omit [Compressor] in
/-- By induction on the fields, none of which reaches the sink. -/
theorem bufferFields (device : String) (time : Int64) (fields : List (String × Value)) :
    InStep same cut (Writer.bufferFields device time fields : Action σ (List SeriesKey))
      (Writer.bufferFields device time fields) := by
  induction fields with
  | nil => exact pure _
  | cons field fields ih =>
    exact (buffer p _ _ _).bind p fun _ => ih.bind p fun _ => pure _

/-- A point, then the buffer if it is full, then whatever the bound asks for. -/
theorem write (key : SeriesKey) (time : Int64) (value : Value) :
    InStep same cut (Writer.write key time value : Action σ Unit)
      (Writer.write key time value) := by
  refine ensureOpen.bind p fun _ => (buffer p key time value).bind p fun full => ?_
  cases full with
  | true => exact (flushSeries p key).bind p fun _ => relievePressure p
  | false => exact relievePressure p

omit [Sink σ] [Sink τ] [Compressor] p in
/-- A record is checked against the buffers alone. -/
theorem checkFields_on (w : Writer σ) (t : τ) (device : String) (time : Int64) (seen : List String)
    (fields : List (String × Value)) :
    (w.on t).checkFields device time seen fields = w.checkFields device time seen fields := by
  have hbuffers : (w.on t).buffers = w.buffers := rfl
  induction fields generalizing seen with
  | nil => rfl
  | cons field fields ih => simp only [checkFields, hbuffers, ih]

/-- Checked as a whole, then buffered field by field, then written. -/
theorem writeRecord (device : String) (time : Int64) (fields : List (String × Value)) :
    InStep same cut (Writer.writeRecord device time fields : Action σ Unit)
      (Writer.writeRecord device time fields) := by
  refine ensureOpen.bind p fun _ => get fun w t => ?_
  rw [checkFields_on]
  cases w.checkFields device time [] fields with
  | error fault => exact throw fault
  | ok =>
    exact (bufferFields p device time fields).bind p fun full =>
      (forM p (flushSeries p) full).bind p fun _ => relievePressure p

theorem flush : InStep same cut (Writer.flush : Action σ Unit) Writer.flush :=
  ensureOpen.bind p fun _ => flushAll p

/-! ### Closing -/

variable [Logarithm]

/-- The footer is the same bytes for both, so it fits for both or for neither. -/
theorem complete : InStep same cut (Writer.complete : Action σ Unit) Writer.complete := by
  refine (flushAll p).bind p fun _ => get fun w t => ?_
  have hfooter : (w.on t).footer = w.footer := rfl
  rw [hfooter]
  refine bind p ?_ fun _ => ?_
  · exact modify (fun _ _ => rfl) fun _ => rfl
  · split
    · exact of_quiet (fun _ _ => rfl) fun _ => rfl
    · exact (put p _).bind p fun _ => putTail p _

/-- A flush and, if it is asked for, a sync are left to the sinks. -/
theorem finish : InStep same cut (Writer.finish : Action σ Unit) Writer.finish := by
  refine (complete p).bind p fun _ => (ask p.flush fun s => s.flush_extends.accepted_prefix).bind p
    fun _ => get fun w t => ?_
  have hoptions : (w.on t).options = w.options := rfl
  rw [hoptions]
  split
  · exact ask p.sync fun s => s.sync_extends.accepted_prefix
  · exact pure _

/-- Closing marks the stage first and last, and does all of the rest in between. -/
theorem close : InStep same cut (Writer.close : Action σ Unit) Writer.close where
  parallel {w t} hsame := by
    rcases hs : w.state with _ | _ | _ | _
    · have hfinish := (orAbort p (finish p)).parallel
        (show same ({ w with state := .closing } : Writer σ).output.sink t from hsame)
      unfold Writer.close
      have hs' : (w.on t).state = .active := hs
      simp only [hs, hs']
      -- From here on only how the rest ended matters.
      generalize Writer.orAbort Writer.finish { w with state := .closing } = r at hfinish
      change Parallel same cut r
        (Writer.orAbort Writer.finish { w.on t with state := .closing }) at hfinish
      generalize Writer.orAbort Writer.finish { w.on t with state := .closing } = r' at hfinish
      cases hfinish with
      | same hsame' =>
        cases r with
        | ok done w' => exact .same (r := .ok _ _) hsame'
        | error fault w' => exact .same (r := .error _ _) hsame'
      | cut failed hcut =>
        refine .cut failed ?_
        cases r' with
        | ok done v => exact hcut
        | error fault v => exact hcut
    -- A writer that is not open does not get as far as its sink.
    all_goals
      have hs' : (w.on t).state = w.state := rfl
      unfold Writer.close
      rw [hs', hs]
      exact .same (r := .error _ _) hsame
  grows w t := by
    rcases hs : w.state with _ | _ | _ | _
    · have hfinish := (orAbort p (finish p)).grows { w with state := .closing } t
      change Sink.accepted t <+: Sink.accepted
        (ended (Writer.orAbort Writer.finish { w.on t with state := .closing })).output.sink
        at hfinish
      have hs' : (w.on t).state = .active := hs
      unfold Writer.close
      simp only [hs']
      generalize Writer.orAbort Writer.finish { w.on t with state := .closing } = r' at hfinish
      cases r' with
      | ok done v => exact hfinish
      | error fault v => exact hfinish
    all_goals
      have hs' : (w.on t).state = w.state := rfl
      simp only [Writer.close, hs', hs, ended, sink_on, List.prefix_rfl]

/-- A caller that gives up is answered by success on both. -/
theorem abort : InStep same cut (Writer.action .abort : Action σ Unit) (Writer.action .abort) where
  parallel {w t} hsame := by
    obtain ⟨t', hsame', habort⟩ := abort_on p hsame
    show Parallel same cut (.ok () w.abort) (.ok () (w.on t).abort)
    rw [habort]
    exact .same (r := .ok _ _) hsame'
  grows w t := by
    show Sink.accepted t <+: Sink.accepted (w.on t).abort.output.sink
    simp only [accepted_abort, sink_on, List.prefix_rfl]

omit p in
/-- Letting go of a writer leaves its sink alone. -/
theorem drop : InStep same cut (Writer.action .drop : Action σ Unit) (Writer.action .drop) := by
  refine of_quiet (fun w t => congrArg (EStateM.Result.ok ()) ?_) fun w => ?_
  · have hstate : (w.on t).state = w.state := rfl
    unfold Writer.drop
    rw [hstate]
    split <;> rfl
  · show w.drop.output = w.output
    unfold Writer.drop
    split <;> rfl

/-- So every operation is done in step. -/
theorem action (op : Operation) :
    InStep same cut (Writer.action op : Action σ Unit) (Writer.action op) := by
  cases op with
  | write key time value => exact write p key time value
  | writeRecord device time fields => exact writeRecord p device time fields
  | flush => exact flush p
  | close => exact close p
  | abort => exact abort p
  | drop => exact drop

end InStep

/-! ### Runs -/

section

variable [Sink σ] [Compressor] [Logarithm] (p : Sink.Pairing same cut)
include p

/-- An operation keeps writers in step, or it fails and leaves the first in no state to go on. -/
theorem perform_on {w : Writer σ} {t : τ} (h : same w.output.sink t) (op : Operation) :
    (∃ t', same (w.perform op).2.output.sink t' ∧
      (w.on t).perform op = ((w.perform op).1, (w.perform op).2.on t')) ∨
    ∃ fault, (w.perform op).1 = .error fault ∧ fault.isRefusal = false ∧
      cut (w.perform op).2.output.sink ((w.on t).perform op).2.output.sink := by
  have haction := (InStep.action p op).parallel h
  unfold perform
  generalize action op w = r at haction
  generalize action op (w.on t) = r' at haction
  cases haction with
  | same hsame =>
    cases r with
    | ok done w' => exact .inl ⟨_, hsame, rfl⟩
    | error fault w' => exact .inl ⟨_, hsame, rfl⟩
  | cut failed hcut =>
    refine .inr ⟨_, rfl, failed, ?_⟩
    cases r' with
    | ok done v => exact hcut
    | error fault v => exact hcut

/-- An operation takes nothing back. -/
theorem accepted_prefix_perform (s : σ) (v : Writer τ) (op : Operation) :
    Sink.accepted v.output.sink <+: Sink.accepted (v.perform op).2.output.sink := by
  have hgrows := (InStep.action p op).grows (v.on s) v.output.sink
  rw [on_back] at hgrows
  unfold perform
  cases hv : action op v with
  | ok done v' =>
    rw [hv] at hgrows
    exact hgrows
  | error fault v' =>
    rw [hv] at hgrows
    exact hgrows

/-- From one operation to all of them, by transitivity. -/
theorem accepted_prefix_after (s : σ) (v : Writer τ) (ops : List Operation) :
    Sink.accepted v.output.sink <+: Sink.accepted (v.after ops).output.sink := by
  induction ops generalizing v with
  | nil => exact List.prefix_rfl
  | cons op ops ih => exact (accepted_prefix_perform p s v op).trans (ih _)

/-- Two writers stay in step, until the first has failed and is finished. -/
theorem Reachable.performAll_on {w : Writer σ} (hw : Reachable w) {t : τ}
    (h : same w.output.sink t) (ops : List Operation) :
    (∃ t', same (w.after ops).output.sink t' ∧
      ((w.on t).performAll ops).1 = (w.performAll ops).1 ∧
      (w.on t).after ops = (w.after ops).on t') ∨
    cut (w.after ops).output.sink ((w.on t).after ops).output.sink := by
  induction ops generalizing w t with
  | nil => exact .inl ⟨t, h, rfl, rfl⟩
  | cons op ops ih =>
    -- By induction on the operations: the first is done in step, or the first sink fails in it.
    rcases perform_on p h op with ⟨t', hsame, hperform⟩ | ⟨fault, hfault, failed, hcut⟩
    · have hanswers : ((w.on t).performAll (op :: ops)).1 =
          (w.perform op).1 :: (((w.perform op).2.on t').performAll ops).1 := by
        rw [Writer.performAll, hperform]
      rw [after_cons, after_cons, hperform, hanswers]
      rcases ih (hw.after op) hsame with ⟨t'', hsame', hrest, hafter⟩ | hcut
      · exact .inl ⟨t'', hsame', congrArg _ hrest, hafter⟩
      · exact .inr hcut
    · -- The first writer is finished and takes no part in the rest of the run.
      have hterminal : (w.perform op).2.state.isTerminal = true := by
        rcases hw.refused_or_ruined hfault with ⟨refused, -⟩ | ⟨-, hgone⟩
        · rw [refused] at failed
          contradiction
        · rw [hgone.state_eq]
          rfl
      rw [after_cons, after_cons, after_terminal hterminal]
      exact .inr (p.grow hcut (accepted_prefix_after p w.output.sink _ ops))

omit [Compressor] [Logarithm] in
/-- Writers are opened in step, unless the first sink fails. -/
theorem start_on {sink : σ} {t : τ} (h : same sink t) (registry : Registry) (options : Options) :
    (∃ opened t', start sink registry options = .ok opened ∧ same opened.output.sink t' ∧
      start t registry options = .ok (opened.on t')) ∨
    (∃ fault sink' t', start sink registry options = .error (fault, sink') ∧ same sink' t' ∧
      start t registry options = .error (fault, t')) ∨
    ∃ fault sink', start sink registry options = .error (fault, sink') ∧
      cut sink' (startedSink (start t registry options)) := by
  have hmagic : Stream.InStep same cut ((Stream.start sink).put Frame.magic)
      ((Stream.start t).put Frame.magic) := Stream.InStep.put p _ h
  unfold start
  generalize (Stream.start sink).put Frame.magic = r at hmagic
  generalize (Stream.start t).put Frame.magic = r' at hmagic
  -- Two things are put, and the sink may fail in either.
  cases hmagic with
  | @same answer s t' hsame =>
    cases answer with
    | error fault => exact .inr (.inl ⟨_, _, _, rfl, hsame, rfl⟩)
    | ok done =>
      have hversion := Stream.InStep.put p [Frame.version] hsame
      dsimp only
      generalize s.put [Frame.version] = r at hversion
      generalize (s.on t').put [Frame.version] = r' at hversion
      cases hversion with
      | @same answer s' t'' hsame' =>
        cases answer with
        | error fault => exact .inr (.inl ⟨_, _, _, rfl, hsame', rfl⟩)
        | ok done => exact .inl ⟨_, _, rfl, hsame', rfl⟩
      | cut hcut =>
        refine .inr (.inr ⟨_, _, rfl, ?_⟩)
        obtain ⟨fault | done, v⟩ := r'
        · exact hcut
        · exact hcut
  | cut hcut =>
    refine .inr (.inr ⟨_, _, rfl, p.grow hcut ?_⟩)
    obtain ⟨fault | done, v⟩ := r'
    · exact List.prefix_rfl
    · have hgrows := v.accepted_prefix_put [Frame.version]
      dsimp only
      generalize v.put [Frame.version] = r at hgrows
      obtain ⟨fault | done, v'⟩ := r
      · exact hgrows
      · exact hgrows

/-- Whatever writers are asked for, their sinks stay related, in one way or the other. -/
theorem sinkAfter_on {sink : σ} {t : τ} (h : same sink t) (registry : Registry)
    (options : Options) (ops : List Operation) :
    same (sinkAfter sink registry options ops) (sinkAfter t registry options ops) ∨
      cut (sinkAfter sink registry options ops) (sinkAfter t registry options ops) := by
  rcases start_on p h registry options with
    ⟨opened, t', hw, hsame, hv⟩ | ⟨fault, sink', t', hw, hsame, hv⟩ | ⟨fault, sink', hw, hcut⟩
  · have hafter : sinkAfter sink registry options ops = (opened.after ops).output.sink := by
      simp only [sinkAfter, hw]
    have hafter' : sinkAfter t registry options ops = ((opened.on t').after ops).output.sink := by
      simp only [sinkAfter, hv]
    rw [hafter, hafter']
    rcases (Reachable.opened hw).performAll_on p hsame ops with ⟨t'', hsame', -, hrest⟩ | hcut
    · refine .inl ?_
      rw [hrest, sink_on]
      exact hsame'
    · exact .inr hcut
  · simp only [sinkAfter, hw, hv]
    exact .inl hsame
  · have hafter : sinkAfter sink registry options ops = sink' := by simp only [sinkAfter, hw]
    rw [hafter]
    -- The first writer never started. What the second one still writes only lengthens its sink.
    refine .inr (p.grow hcut ?_)
    unfold sinkAfter
    cases start t registry options with
    | ok opened => exact accepted_prefix_after p sink opened ops
    | error failure => exact List.prefix_rfl

end

end Writer

/-! ### What every call keeps -/

/-- Whatever a sink with `K` is asked for, it keeps `K`. -/
structure Sink.Keeps [Sink σ] (K : σ → Prop) : Prop where
  write : ∀ {s : σ} (bytes : Bytes), K s → K (Sink.write s bytes).2
  flush : ∀ {s : σ}, K s → K (Sink.flush s).2
  sync : ∀ {s : σ}, K s → K (Sink.sync s).2

namespace Sink.Keeps

variable [Sink σ] {K : σ → Prop} (k : Sink.Keeps K)
include k

/-- Every call of the sink in the course of writing all keeps `K`: by induction on how many calls
are left. -/
theorem writeAllWithin (limit : Nat) {s : Stream σ} (h : K s.sink) (bytes : Bytes) :
    K (s.writeAllWithin limit bytes).2.sink := by
  induction limit generalizing s bytes with
  | zero => cases bytes <;> exact h
  | succ limit ih =>
    cases bytes with
    | nil => exact h
    | cons b bytes =>
      have hwrite : K (s.write (b :: bytes)).2.sink := by
        have hcall := k.write (b :: bytes) h
        unfold Stream.write
        generalize Sink.write s.sink (b :: bytes) = r at hcall
        obtain ⟨cause | n, sink⟩ := r <;> exact hcall
      rw [Stream.writeAllWithin]
      generalize s.write (b :: bytes) = r at hwrite
      obtain ⟨cause | n, s'⟩ := r
      · exact hwrite
      · cases n with
        | zero => exact hwrite
        | succ n => exact ih hwrite _

/-- A sink keeps in step with itself. -/
theorem pairing : Sink.Pairing (fun s t : σ => s = t ∧ K s) fun _ _ => False where
  writeAll {s t} bytes h := by
    obtain ⟨rfl, h⟩ := h
    exact .same ⟨rfl, k.writeAllWithin bytes.length h bytes⟩
  flush {s t} h := by
    obtain ⟨rfl, h⟩ := h
    exact .same ⟨rfl, k.flush h⟩
  sync {s t} h := by
    obtain ⟨rfl, h⟩ := h
    exact .same ⟨rfl, k.sync h⟩
  release {s t} h := by
    obtain ⟨rfl, h⟩ := h
    exact ⟨rfl, k.flush h⟩
  release_cut h := h
  grow h _ := h

/-- What every call keeps, every operation keeps. -/
theorem perform [Compressor] [Logarithm] {w : Writer σ} (h : K w.output.sink) (op : Operation) :
    K (w.perform op).2.output.sink := by
  rcases Writer.perform_on k.pairing ⟨rfl, h⟩ op with ⟨t, ⟨-, hk⟩, -⟩ | ⟨-, -, -, hcut⟩
  · exact hk
  · exact hcut.elim

end Sink.Keeps

end SeriesFile
