import SeriesFile.Bytes.Reader

/-!
# Sinks

A `Sink` takes bytes, from the front of what it is offered and not always all of it, or refuses
them. Whatever it does, the bytes it has accepted only grow, and by exactly what it says it took:
this is all that a stream on top of it needs to know.

`MemorySink` is a sink with limits that can be set, to see what happens when they are met.
-/

namespace SeriesFile

/-- Something that takes bytes. -/
class Sink (σ : Type) where
  /-- The bytes accepted so far. -/
  accepted : σ → Bytes
  /-- Offers bytes; the answer is how many were taken. -/
  write : σ → Bytes → Except IoCause Nat × σ
  /-- Asks for accepted bytes to be passed on. -/
  flush : σ → Except IoCause Unit × σ
  /-- Waits until what was passed on is safe; in memory there is nothing to wait for. -/
  sync : σ → Except IoCause Unit × σ
  /-- What was taken is the front of what was offered. -/
  accepted_write_ok : ∀ {s s' : σ} {bytes : Bytes} {n : Nat}, write s bytes = (.ok n, s') →
    n ≤ bytes.length ∧ accepted s' = accepted s ++ bytes.take n
  /-- A refusal takes nothing. -/
  accepted_write_error : ∀ {s s' : σ} {bytes : Bytes} {cause : IoCause},
    write s bytes = (.error cause, s') → accepted s' = accepted s
  /-- Passing on takes nothing and loses nothing. -/
  accepted_flush : ∀ s : σ, accepted (flush s).2 = accepted s
  /-- Nor does waiting. -/
  accepted_sync : ∀ s : σ, accepted (sync s).2 = accepted s

structure MemorySink where
  /-- The bytes it has room for; all there are, if not given. -/
  capacity : Option Nat
  /-- The bytes it takes at a time; all that are offered, if not given. -/
  portion : Option Nat
  /-- Whether it takes nothing when full, instead of refusing. -/
  stallsWhenFull : Bool
  /-- Whether it refuses to pass bytes on. -/
  refusesFlush : Bool
  /-- The bytes it has taken. -/
  taken : Array UInt8

namespace MemorySink

def unlimited : MemorySink where
  capacity := none
  portion := none
  stallsWhenFull := false
  refusesFlush := false
  taken := #[]

def isFull (s : MemorySink) : Bool :=
  s.capacity.any fun n => n ≤ s.taken.size

/-- The lesser of a number and a limit, if there is a limit. -/
def cap (limit : Option Nat) (n : Nat) : Nat :=
  match limit with
  | some most => min n most
  | none => n

/-- How many of `offered` bytes it takes at a time. -/
def accepts (s : MemorySink) (offered : Nat) : Nat :=
  cap s.portion (cap (s.capacity.map (· - s.taken.size)) offered)

theorem cap_le (limit : Option Nat) (n : Nat) : cap limit n ≤ n := by
  unfold cap
  split <;> omega

theorem accepts_le (s : MemorySink) (offered : Nat) : s.accepts offered ≤ offered :=
  Nat.le_trans (cap_le _ _) (cap_le _ _)

def write (s : MemorySink) (bytes : Bytes) : Except IoCause Nat × MemorySink :=
  if s.isFull && !bytes.isEmpty && !s.stallsWhenFull then (.error (.refused "disk full"), s)
  else
    let n := s.accepts bytes.length
    (.ok n, { s with taken := s.taken ++ bytes.take n })

/-- Passes bytes on, which is nothing to do in memory. -/
def flush (s : MemorySink) : Except IoCause Unit × MemorySink :=
  (if s.refusesFlush then .error (.refused "flush failed") else .ok (), s)

instance : Sink MemorySink where
  accepted s := s.taken.toList
  write := write
  flush := flush
  sync s := (.ok (), s)
  accepted_write_ok {s s' bytes n} h := by
    unfold write at h
    split at h
    · simp at h
    · simp only [Prod.mk.injEq, Except.ok.injEq] at h
      obtain ⟨rfl, rfl⟩ := h
      exact ⟨s.accepts_le _, by simp⟩
  accepted_write_error {s s' bytes cause} h := by
    unfold write at h
    split at h
    · simp only [Prod.mk.injEq] at h
      rw [h.2]
    · simp at h
  accepted_flush _ := rfl
  accepted_sync _ := rfl

/-- A sink that takes everything has taken nothing at first. -/
theorem accepted_unlimited : Sink.accepted unlimited = [] := rfl

end MemorySink

end SeriesFile
