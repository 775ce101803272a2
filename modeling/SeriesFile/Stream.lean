import SeriesFile.Hash.Crc32
import SeriesFile.Sink

/-!
# Streams

A `Stream` is a sink with the number of bytes that it has accepted and their checksum. Nothing
is ever taken back, so a position once reached stays the place of what is written there.

Every operation moves sink, position and checksum on by the same bytes, also where it fails
(`Extends`); of bytes that are to be written entirely it is the front (`writeAll_extends`).
-/

namespace SeriesFile

/-- A sink that knows its position and the checksum of what it accepted. -/
structure Stream (σ : Type) where
  sink : σ
  /-- The number of bytes accepted. -/
  position : Nat
  /-- The checksum register after them. -/
  register : UInt32

namespace Stream

variable {σ : Type}

def start (sink : σ) : Stream σ := ⟨sink, 0, Crc32.initial⟩

def checksum (s : Stream σ) : UInt32 :=
  Crc32.finish s.register

variable [Sink σ]

/-- Offers bytes once. -/
def write (s : Stream σ) (bytes : Bytes) : Except IoCause Nat × Stream σ :=
  match Sink.write s.sink bytes with
  | (.ok n, sink) =>
    (.ok n, ⟨sink, s.position + n, Crc32.update s.register (bytes.take n)⟩)
  | (.error cause, sink) => (.error cause, { s with sink })

/-- Offers bytes again and again, `limit` times at most, until all are taken. -/
def writeAllWithin : (limit : Nat) → Stream σ → Bytes → Except IoCause Unit × Stream σ
  | _, s, [] => (.ok (), s)
  | 0, s, _ :: _ => (.error .sinkStalled, s)
  | limit + 1, s, b :: bytes =>
    match s.write (b :: bytes) with
    | (.ok 0, s) => (.error .sinkStalled, s)
    | (.ok (n + 1), s) => writeAllWithin limit s (bytes.drop n)
    | (.error cause, s) => (.error cause, s)

/-- Offers bytes again and again until all are taken; a sink that takes none of them ends it. As
every other offer takes a byte, no more offers are made than there are bytes. -/
def writeAll (s : Stream σ) (bytes : Bytes) : Except IoCause Unit × Stream σ :=
  writeAllWithin bytes.length s bytes

def flush (s : Stream σ) : Except IoCause Unit × Stream σ :=
  match Sink.flush s.sink with
  | (answer, sink) => (answer, { s with sink })

def sync (s : Stream σ) : Except IoCause Unit × Stream σ :=
  match Sink.sync s.sink with
  | (answer, sink) => (answer, { s with sink })

/-! ### What an operation does to a stream -/

/-- A stream becomes another by accepting some bytes: sink, position and checksum have moved on by
them, and by nothing else. -/
structure Extends (s s' : Stream σ) (bytes : Bytes) : Prop where
  accepted : Sink.accepted s'.sink = Sink.accepted s.sink ++ bytes
  position : s'.position = s.position + bytes.length
  register : s'.register = Crc32.update s.register bytes

namespace Extends

variable {s s' s'' : Stream σ} {a b : Bytes}

theorem refl (s : Stream σ) : Extends s s [] :=
  ⟨by simp, rfl, rfl⟩

theorem trans (h : Extends s s' a) (h' : Extends s' s'' b) : Extends s s'' (a ++ b) where
  accepted := by rw [h'.accepted, h.accepted, List.append_assoc]
  position := by rw [h'.position, h.position, List.length_append, Nat.add_assoc]
  register := by rw [h'.register, h.register, Crc32.update_append]

end Extends

theorem write_ok {s s' : Stream σ} {bytes : Bytes} {n : Nat} (h : s.write bytes = (.ok n, s')) :
    n ≤ bytes.length ∧ Extends s s' (bytes.take n) := by
  unfold write at h
  split at h
  · rename_i m sink hw
    obtain ⟨hn, ha⟩ := Sink.accepted_write_ok hw
    simp only [Prod.mk.injEq, Except.ok.injEq] at h
    obtain ⟨rfl, rfl⟩ := h
    exact ⟨hn, ha, by simp [Nat.min_eq_left hn], rfl⟩
  · simp at h

theorem write_error {s s' : Stream σ} {bytes : Bytes} {cause : IoCause}
    (h : s.write bytes = (.error cause, s')) : Extends s s' [] := by
  unfold write at h
  split at h
  · simp at h
  · rename_i sink hw
    simp only [Prod.mk.injEq, Except.error.injEq] at h
    obtain ⟨rfl, rfl⟩ := h
    exact ⟨by simp [Sink.accepted_write_error hw], rfl, rfl⟩

theorem flush_extends (s : Stream σ) : Extends s s.flush.2 [] := by
  unfold flush
  exact ⟨by simp [Sink.accepted_flush], rfl, rfl⟩

theorem sync_extends (s : Stream σ) : Extends s s.sync.2 [] := by
  unfold sync
  exact ⟨by simp [Sink.accepted_sync], rfl, rfl⟩

theorem writeAllWithin_extends (limit : Nat) (s : Stream σ) (bytes : Bytes) :
    ∃ front, front <+: bytes ∧ Extends s (writeAllWithin limit s bytes).2 front ∧
      ((writeAllWithin limit s bytes).1 = .ok () ↔ front = bytes) := by
  induction limit generalizing s bytes with
  | zero =>
    cases bytes with
    | nil => exact ⟨[], List.prefix_rfl, .refl s, by simp [writeAllWithin]⟩
    | cons b bytes => exact ⟨[], List.nil_prefix, .refl s, by simp [writeAllWithin]⟩
  | succ limit ih =>
    cases bytes with
    | nil => exact ⟨[], List.prefix_rfl, .refl s, by simp [writeAllWithin]⟩
    | cons b bytes =>
      simp only [writeAllWithin]
      split
      · rename_i s' hw
        exact ⟨[], List.nil_prefix, (write_ok hw).2, by simp⟩
      · rename_i n s' hw
        obtain ⟨hn, he⟩ := write_ok hw
        obtain ⟨front, hp, hx, hi⟩ := ih s' (bytes.drop n)
        rw [List.take_succ_cons] at he
        refine ⟨b :: bytes.take n ++ front, ?_, he.trans hx, hi.trans ?_⟩
        · obtain ⟨rest, hr⟩ := hp
          exact ⟨rest, by simp [List.append_assoc, hr]⟩
        · constructor
          · rintro rfl
            simp
          · intro h
            refine List.append_cancel_left (?_ : bytes.take n ++ front = _ ++ bytes.drop n)
            rw [List.take_append_drop]
            exact (List.cons.inj h).2
      · rename_i cause s' hw
        exact ⟨[], List.nil_prefix, write_error hw, by simp⟩

/-- Of bytes that are to be written entirely the front is accepted, and all of them exactly if no
failure is reported. -/
theorem writeAll_extends (s : Stream σ) (bytes : Bytes) :
    ∃ front, front <+: bytes ∧ Extends s (s.writeAll bytes).2 front ∧
      ((s.writeAll bytes).1 = .ok () ↔ front = bytes) :=
  writeAllWithin_extends bytes.length s bytes

end Stream

end SeriesFile
