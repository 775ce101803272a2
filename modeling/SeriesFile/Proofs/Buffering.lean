import SeriesFile.Proofs.Conservation
import SeriesFile.Proofs.TimeOrder

/-!
# Buffers on their own

A buffer says the same thing several times over: its phase tells whether it has points, its last
time is that of the last point it took, its bytes are those of its points, and times and values
belong together. Whatever it is asked for, and whatever the sinks do that it is flushed to, all of
this goes on agreeing, and no point is lost, repeated or moved: what was handed over and what is
still there make up what was accepted (`Buffer.conserves`).

What was accepted and what was handed over is read off the answers to the calls (`Buffer.accepted`,
`Buffer.handedOver`). One call keeps the buffer in order (`Ordered.perform`), and so do all of them.
-/

namespace SeriesFile.Buffer

section

variable {σ : Type} [Sink σ] [Compressor]

/-- What a buffer is asked for. The stream of a flush may have any past. -/
inductive Call (σ : Type) where
  | append (time : Int64) (value : Value)
  | check (time : Int64) (value : Value)
  | flush (measurement : String) (stream : Stream σ)

/-- Whether a call was successful, and the buffer after it. -/
def perform (b : Buffer) : Call σ → Except Fault Unit × Buffer
  | .append time value =>
    match b.append time value with
    | .ok (_, b) => (.ok (), b)
    | .error fault => (.error fault, b)
  | .check time value => (b.check time value, b)
  | .flush measurement stream =>
    match b.flush measurement stream with
    | (.ok _, b, _) => (.ok (), b)
    | (.error fault, b, _) => (.error fault, b)

/-- The point that a call makes a buffer accept, if it does. -/
def taken (b : Buffer) (call : Call σ) : List Point :=
  match call, (b.perform call).1 with
  | .append time value, .ok () => [⟨time, value⟩]
  | _, _ => []

/-- The run that a call hands over, if it is a flush and successful. -/
def handed (b : Buffer) (call : Call σ) : List (List Point) :=
  match call, (b.perform call).1 with
  | .flush _ _, .ok () => [b.points]
  | _, _ => []

/-- The buffer after calls. -/
def after (b : Buffer) : List (Call σ) → Buffer
  | [] => b
  | call :: calls => (b.perform call).2.after calls

/-- The points that were appended with success, in order. -/
def accepted (b : Buffer) : List (Call σ) → List Point
  | [] => []
  | call :: calls => b.taken call ++ (b.perform call).2.accepted calls

/-- The runs of successful flushes, in order. -/
def handedOver (b : Buffer) : List (Call σ) → List (List Point)
  | [] => []
  | call :: calls => b.handed call ++ (b.perform call).2.handedOver calls

/-! ### One call -/

/-- A buffer keeps its account, its phase tells whether it has points, and times ascend. -/
structure Ordered (b : Buffer) (schema : Schema) (flushed accepted : List Point) : Prop
    extends b.Keeps schema flushed accepted where
  phase_eq : b.phase = if b.isEmpty then .empty else .accumulating
  ascends : (accepted.map Point.time).Pairwise (· < ·)

variable {b b' : Buffer} {schema : Schema} {flushed accepted : List Point} {time : Int64}
  {value : Value} {fault : Fault}

section

omit [Sink σ] [Compressor]

/-- A new buffer has accepted nothing and is in order. -/
theorem ordered_new (schema : Schema) : (new schema).Ordered schema [] [] :=
  ⟨keeps_new schema, rfl, .nil⟩

/-- Whoever asks first is told what appending would answer. -/
theorem append_refused (hc : b.check time value = .error fault) :
    b.append time value = .error fault := by
  rw [append, hc]
  rfl

/-- With its first point a buffer begins to accumulate. -/
theorem append_accumulates {added : Nat} (h : b.append time value = .ok (added, b')) :
    b'.isEmpty = false ∧ b'.phase = .accumulating := by
  unfold append at h
  obtain ⟨-, -, h⟩ := bind_eq_ok.1 h
  split at h
  · contradiction
  · cases h
    exact ⟨by simp [isEmpty], rfl⟩

namespace Ordered

variable (h : b.Ordered schema flushed accepted)
include h

/-- A point that is not refused comes after all others. -/
theorem lt_of_check (hc : b.check time value = .ok ()) :
    ∀ last ∈ accepted.getLast?, last.time < time := by
  intro last hlast
  rw [h.check_eq] at hc
  split at hc
  · contradiction
  · rw [hlast] at hc
    dsimp only at hc
    split at hc
    · contradiction
    · rename_i hlt
      exact Int64.not_le.1 hlt

/-- A point that is not refused is taken, with its cost, and goes to the end. -/
theorem append_ok (hc : b.check time value = .ok ()) :
    ∃ b', b.append time value = .ok (cost value, b') ∧
      b'.Ordered schema flushed (accepted ++ [⟨time, value⟩]) := by
  obtain ⟨b', happend, hkeeps⟩ := h.toKeeps.append_ok hc
  obtain ⟨hfilled, hphase⟩ := append_accumulates happend
  refine ⟨b', happend, hkeeps, ?_, ascends_append h.ascends (h.lt_of_check hc)⟩
  rw [hphase, hfilled]
  rfl

/-- What is handed over leaves the buffer, with its phase, and the last time stays. -/
theorem emptied : b.emptied.Ordered schema (flushed ++ b.points) accepted where
  toKeeps := h.toKeeps.emptied
  phase_eq := rfl
  ascends := h.ascends

/-- The phase tells whether there are points. -/
theorem phase_eq_empty_iff : b.phase = .empty ↔ b.points = [] := by
  have hlength := h.length_points
  rw [h.phase_eq, ← List.length_eq_zero_iff, hlength, length, isEmpty]
  cases b.times <;> simp

/-- Between calls no buffer is in the middle of a flush. -/
theorem phase_ne_flushing : b.phase ≠ .flushing := by
  rw [h.phase_eq]
  split <;> nofun

/-- The times in a buffer are the last ones of those it has accepted, so they ascend as all do. -/
theorem ascends_times : b.times.Pairwise (· < ·) := by
  have hpoints := h.ascends
  rw [h.points, List.map_append] at hpoints
  have htimes : b.points.map Point.time = b.times := Page.times_join h.parallel
  rw [← htimes]
  exact (List.pairwise_append.1 hpoints).2.1

end Ordered

end

/-- How a flush ends: without points nothing is written; a chunk of the points is written and they
are gone; or there is a fault, and the buffer is what it was. -/
inductive Flushed (b : Buffer) (measurement : String) (stream : Stream σ) :
    Except Fault (Option ChunkEntry) × Buffer × Stream σ → Prop
  | idle (nothing : b.points = []) : Flushed b measurement stream (.ok none, b, stream)
  | written {chunk : Chunk} {entry : ChunkEntry} {stream' : Stream σ}
      (build : Chunk.build measurement b.schema b.times b.column = .ok (some chunk))
      (extends_ : stream.Extends stream' chunk.write) :
      Flushed b measurement stream (.ok (some entry), b.emptied, stream')
  | failed {fault : Fault} {stream' : Stream σ} :
      Flushed b measurement stream (.error fault, b, stream')

namespace Ordered

variable (h : b.Ordered schema flushed accepted)
include h

/-- How a flush ends is told by the chunk: there are no points, or it is written, or it is not. -/
theorem flush_ends (measurement : String) (stream : Stream σ) :
    Flushed b measurement stream (b.flush measurement stream) := by
  cases hempty : b.isEmpty with
  | true =>
    simp only [flush, hempty, if_true]
    exact .idle (points_of_isEmpty hempty)
  | false =>
    have htimes : b.times ≠ [] := fun hnil => by simp [isEmpty, hnil] at hempty
    -- The phase goes to flushing and comes back if there is no chunk, so nothing remains of it.
    have hphase : { b with phase := .accumulating } = b := by
      rw [← (h.phase_eq.trans (by rw [hempty]; rfl) : b.phase = .accumulating)]
    simp only [flush, hempty, Bool.false_eq_true, if_false, hphase]
    rcases hput : stream.appendChunk measurement b.schema b.times b.column with
      ⟨fault | _ | entry, stream'⟩
    · exact .failed
    · -- Of points there is a chunk, so this does not happen.
      exact absurd (Stream.appendChunk_none hput) (Chunk.build_ne_none htimes h.parallel)
    · obtain ⟨chunk, hbuild, hextends, -⟩ := Stream.appendChunk_ok hput
      exact .written hbuild hextends

/-- Whatever a buffer is asked for, it is in order, with what it took and without what it handed
over. -/
theorem perform (call : Call σ) :
    (b.perform call).2.Ordered schema (flushed ++ (b.handed call).flatten)
      (accepted ++ b.taken call) := by
  cases call with
  | append time value =>
    cases hc : b.check time value with
    | error fault =>
      simpa [handed, taken, Buffer.perform, append_refused hc] using h
    | ok =>
      obtain ⟨b', happend, hb'⟩ := h.append_ok hc
      simpa [handed, taken, Buffer.perform, happend] using hb'
  | check time value => simpa [handed, taken, Buffer.perform] using h
  | flush measurement stream =>
    have hflushed := h.flush_ends measurement stream
    simp only [handed, taken, Buffer.perform]
    generalize b.flush measurement stream = r at hflushed
    -- Only a flush that writes hands points over.
    cases hflushed with
    | idle nothing => simpa [nothing] using h
    | written => simpa using h.emptied
    | failed => simpa using h

/-- The same of all calls, one after another. -/
theorem after (calls : List (Call σ)) :
    (b.after calls).Ordered schema (flushed ++ (b.handedOver calls).flatten)
      (accepted ++ b.accepted calls) := by
  -- By induction on the calls, with what was taken and handed over so far generalised.
  induction calls generalizing b flushed accepted with
  | nil => simpa [Buffer.after, Buffer.accepted, handedOver] using h
  | cons call calls ih =>
    have hcalls := ih (h.perform call)
    rwa [List.append_assoc, List.append_assoc, ← List.flatten_append] at hcalls

end Ordered

/-! ### All calls -/

/-- What agrees in a buffer, with the points that it has accepted and the runs that it has handed
over. -/
structure Agrees (schema : Schema) (runs : List (List Point)) (accepted : List Point)
    (b : Buffer) : Prop where
  stored : b.schema = schema
  empty_iff : b.phase = .empty ↔ b.points = []
  settled : b.phase ≠ .flushing
  parallel : b.times.length = b.column.length
  typed : b.column.dataType = schema.dataType
  ascends : b.times.Pairwise (· < ·)
  /-- The last time outlives the points it was accepted with. -/
  last : b.lastTime = accepted.getLast?.map Point.time
  rawBytes : b.rawBytes = (b.points.map fun p => 8 + p.value.rawSize).sum
  conserved : runs.flatten ++ b.points = accepted

omit [Sink σ] [Compressor] in
/-- What is in order agrees in everything that is asked of it. -/
theorem Ordered.agrees {runs : List (List Point)}
    (h : b.Ordered schema runs.flatten accepted) : Agrees schema runs accepted b where
  stored := h.stored
  empty_iff := h.phase_eq_empty_iff
  settled := h.phase_ne_flushing
  parallel := h.parallel
  typed := h.typed
  ascends := h.ascends_times
  last := h.last
  rawBytes := h.counted
  conserved := h.points.symm

/-- After any calls a buffer agrees with itself and with what it has accepted and handed over. It
then takes a point exactly if it says that it would, and is what it was if it does not; and a flush
writes all of its points as a chunk, or changes nothing about it. -/
theorem conserves (schema : Schema) (calls : List (Call σ)) :
    Agrees schema ((new schema).handedOver calls) ((new schema).accepted calls)
      ((new schema).after calls) ∧
    (∀ time value, (((new schema).after calls).perform (.append time value : Call σ)).1 =
      ((new schema).after calls).check time value) ∧
    (∀ time value fault,
      (((new schema).after calls).perform (.append time value : Call σ)).1 = .error fault →
      (((new schema).after calls).perform (.append time value : Call σ)).2 =
        (new schema).after calls) ∧
    ∀ measurement (stream : Stream σ), Flushed ((new schema).after calls) measurement stream
      (((new schema).after calls).flush measurement stream) := by
  have h := (ordered_new schema).after calls
  simp only [List.nil_append] at h
  refine ⟨h.agrees, fun time value => ?_, fun time value fault hf => ?_, h.flush_ends⟩
  · cases hc : ((new schema).after calls).check time value with
    | error fault => simp only [perform, append_refused hc]
    | ok =>
      obtain ⟨b', happend, -⟩ := h.append_ok hc
      simp only [perform, happend]
  · simp only [perform] at hf ⊢
    split at hf
    · contradiction
    · rfl

end

/-- Two points, one of them again, a flush for which there is no room and one for which there is,
and a point after it. -/
def sampleCalls : List (Call MemorySink) := [
  .append 1 (.int32 7),
  .append 2 (.int32 8),
  .append 2 (.int32 9),
  .flush "t" (Stream.start { MemorySink.unlimited with capacity := some 4 }),
  .check 2 (.text "x"),
  .flush "t" (Stream.start MemorySink.unlimited),
  .append 2 (.int32 10),
  .append 3 (.int32 11)]

/-- The repeated point is refused, the first flush fails and leaves the points, and the second takes
them along; the point after it must be later than they were. -/
theorem conserves_sample :
    (new ⟨.int32, .plain, .uncompressed⟩).accepted sampleCalls =
        [⟨1, .int32 7⟩, ⟨2, .int32 8⟩, ⟨3, .int32 11⟩] ∧
      (new ⟨.int32, .plain, .uncompressed⟩).handedOver sampleCalls =
        [[⟨1, .int32 7⟩, ⟨2, .int32 8⟩]] ∧
      Agrees ⟨.int32, .plain, .uncompressed⟩ [[⟨1, .int32 7⟩, ⟨2, .int32 8⟩]]
        [⟨1, .int32 7⟩, ⟨2, .int32 8⟩, ⟨3, .int32 11⟩]
        ((new ⟨.int32, .plain, .uncompressed⟩).after sampleCalls) := by
  have haccepted : (new ⟨.int32, .plain, .uncompressed⟩).accepted sampleCalls =
      [⟨1, .int32 7⟩, ⟨2, .int32 8⟩, ⟨3, .int32 11⟩] := by decide +kernel
  have hruns : (new ⟨.int32, .plain, .uncompressed⟩).handedOver sampleCalls =
      [[⟨1, .int32 7⟩, ⟨2, .int32 8⟩]] := by decide +kernel
  obtain ⟨hagrees, -⟩ := conserves ⟨.int32, .plain, .uncompressed⟩ sampleCalls
  rw [haccepted, hruns] at hagrees
  exact ⟨haccepted, hruns, hagrees⟩

end SeriesFile.Buffer
