import SeriesFile.Session.Disk
import SeriesFile.Sink

/-!
# Open files

An `OpenFile` collects small writes in memory and hands them to its medium when there is no room for
more; large writes go to the medium at once. The medium is what the system gives for a path. It is a
sink of its own and may do whatever a sink may: take less than it is offered, refuse bytes, refuse
to pass them on or to make them safe, at first or only later.

So there are two places where the bytes of an open file can be, and whatever fails, no byte gets
lost between them: what the medium has accepted and what still waits are what the file has taken
(`OpenFile.handOn_spec`). That is why an open file is a sink again.
-/

namespace SeriesFile

section

variable {μ : Type} [Sink μ]

/-- What the system gives for a file that it creates: something to write to, which has accepted
nothing yet. -/
structure Grant (μ : Type) [Sink μ] where
  /-- The file of the disk that holds what the medium accepts. What is accepted elsewhere, by a
  device for example, is in none. -/
  file? : Option String
  medium : μ
  blank : Sink.accepted medium = []

/-- A path at which a file is to be created, and what the system gives for it, if it does. -/
structure Place (μ : Type) [Sink μ] where
  path : String
  grant? : Option (Grant μ)

/-- A path as the directory follows it: it has no place for what lies outside of it. -/
def Disk.place (path : String) (medium : μ) (blank : Sink.accepted medium = []) : Place μ where
  path
  grant? := (name? path).map fun name => ⟨some name, medium, blank⟩

end

structure OpenFile (μ : Type) where
  /-- The file of the disk that holds what the medium accepts, if there is one. -/
  file? : Option String
  medium : μ
  /-- What waits in memory. -/
  waiting : Array UInt8

namespace OpenFile

variable {μ : Type} [Sink μ]

/-- The number of bytes that can wait. -/
def capacity : Nat := 8192

def new (g : Grant μ) : OpenFile μ := ⟨g.file?, g.medium, #[]⟩

/-- Offers bytes to a medium again and again, `limit` times at most, until all are taken. The bytes
that are answered are those that were not. -/
def handOn : (limit : Nat) → μ → Bytes → Except IoCause Unit × μ × Bytes
  | _, m, [] => (.ok (), m, [])
  | 0, m, b :: bytes => (.error (.refused "failed to write the buffered data"), m, b :: bytes)
  | limit + 1, m, b :: bytes =>
    match Sink.write m (b :: bytes) with
    | (.ok 0, m) => (.error (.refused "failed to write the buffered data"), m, b :: bytes)
    | (.ok (n + 1), m) => handOn limit m (bytes.drop n)
    | (.error cause, m) => (.error cause, m, b :: bytes)

/-- Hands what waits to the medium. What it does not take waits on. As every offer takes a byte or
is the last one, no more are made than there are bytes. -/
def drain (f : OpenFile μ) : Except IoCause Unit × OpenFile μ :=
  match handOn f.waiting.size f.medium f.waiting.toList with
  | (answer, medium, left) => (answer, { f with medium, waiting := left.toArray })

/-- Hands what waits to the medium, and asks it to pass on what it has. -/
def flush (f : OpenFile μ) : Except IoCause Unit × OpenFile μ :=
  match f.drain with
  | (.error cause, f) => (.error cause, f)
  | (.ok (), f) =>
    match Sink.flush f.medium with
    | (answer, medium) => (answer, { f with medium })

def sync (f : OpenFile μ) : Except IoCause Unit × OpenFile μ :=
  match Sink.sync f.medium with
  | (answer, medium) => (answer, { f with medium })

/-- Takes bytes into memory if there is room, after making room if not. Bytes that could never wait
are offered to the medium, once. -/
def write (f : OpenFile μ) (bytes : Bytes) : Except IoCause Nat × OpenFile μ :=
  let room := capacity - f.waiting.size
  match if room < bytes.length then f.drain else (.ok (), f) with
  | (.error cause, f) => (.error cause, f)
  | (.ok (), f) =>
    -- Nothing waits any more if the bytes are too many to wait.
    if bytes.length < capacity then (.ok bytes.length, { f with waiting := f.waiting ++ bytes })
    else
      match Sink.write f.medium bytes with
      | (answer, medium) => (answer, { f with medium })

/-- An open file that nobody holds any more hands on what waits, as far as it still can. -/
def letGo (f : OpenFile μ) : OpenFile μ :=
  f.drain.2

/-- The bytes taken so far. -/
def accepted (f : OpenFile μ) : Bytes :=
  Sink.accepted f.medium ++ f.waiting.toList

/-- Bytes that are handed on are with the medium or left, and in the right order. If no failure is
reported, none is left. -/
theorem handOn_spec (limit : Nat) (m : μ) (bytes : Bytes) :
    ∃ taken, bytes = taken ++ (handOn limit m bytes).2.2 ∧
      Sink.accepted (handOn limit m bytes).2.1 = Sink.accepted m ++ taken ∧
      ((handOn limit m bytes).1 = .ok () → (handOn limit m bytes).2.2 = []) := by
  induction limit generalizing m bytes with
  | zero =>
    cases bytes with
    | nil => exact ⟨[], rfl, (List.append_nil _).symm, fun _ => rfl⟩
    | cons b bytes => exact ⟨[], rfl, (List.append_nil _).symm, nofun⟩
  | succ limit ih =>
    cases bytes with
    | nil => exact ⟨[], rfl, (List.append_nil _).symm, fun _ => rfl⟩
    | cons b bytes =>
      simp only [handOn]
      split
      · rename_i m' hw
        obtain ⟨-, ha⟩ := Sink.accepted_write_ok hw
        exact ⟨[], rfl, ha, nofun⟩
      · rename_i n m' hw
        obtain ⟨-, ha⟩ := Sink.accepted_write_ok hw
        obtain ⟨taken, hbytes, htaken, hdone⟩ := ih m' (bytes.drop n)
        -- The next offer begins where this one ended.
        refine ⟨b :: bytes.take n ++ taken, ?_, ?_, hdone⟩
        · rw [List.append_assoc, ← hbytes, List.cons_append, List.take_append_drop]
        · rw [htaken, ha, List.take_succ_cons, List.append_assoc]
      · rename_i cause m' hw
        exact ⟨[], rfl, by rw [Sink.accepted_write_error hw, List.append_nil], nofun⟩

/-- What waits goes to the medium and nowhere else. -/
theorem drain_spec (f : OpenFile μ) :
    f.drain.2.file? = f.file? ∧ Sink.accepted f.medium <+: Sink.accepted f.drain.2.medium ∧
      f.drain.2.accepted = f.accepted ∧ (f.drain.1 = .ok () → f.drain.2.waiting = #[]) := by
  obtain ⟨taken, hbytes, htaken, hdone⟩ :=
    handOn_spec f.waiting.size f.medium f.waiting.toList
  refine ⟨rfl, ⟨taken, htaken.symm⟩, ?_, fun h => ?_⟩
  · show Sink.accepted (handOn f.waiting.size f.medium f.waiting.toList).2.1 ++ _ = _
    rw [htaken, List.append_assoc, accepted]
    exact congrArg _ hbytes.symm
  · exact congrArg List.toArray (hdone h)

theorem accepted_flush (f : OpenFile μ) : f.flush.2.accepted = f.accepted := by
  obtain ⟨-, -, haccepted, -⟩ := f.drain_spec
  unfold flush
  generalize f.drain = r at haccepted ⊢
  obtain ⟨cause | done, f'⟩ := r
  · exact haccepted
  · rw [← haccepted, accepted, accepted, ← Sink.accepted_flush f'.medium]

/-- Room is made only where it is needed, and then all of it. -/
theorem makeRoom_ok {f f' : OpenFile μ} {n : Nat}
    (h : (if capacity - f.waiting.size < n then f.drain else (.ok (), f)) = (.ok (), f')) :
    f'.accepted = f.accepted ∧ (capacity ≤ n → f'.waiting = #[]) := by
  split at h
  · obtain ⟨-, -, haccepted, hempty⟩ := f.drain_spec
    rw [h] at haccepted hempty
    exact ⟨haccepted, fun _ => hempty rfl⟩
  · rename_i hn
    simp only [Prod.mk.injEq, true_and] at h
    subst h
    refine ⟨rfl, fun hc => Array.eq_empty_of_size_eq_zero ?_⟩
    have : 0 < capacity := by decide
    omega

instance : Sink (OpenFile μ) where
  accepted := accepted
  write := write
  flush := flush
  sync := sync
  accepted_write_ok {s s' bytes n} h := by
    unfold write at h
    dsimp only at h
    split at h
    · simp at h
    · rename_i f hm
      obtain ⟨ha, hw⟩ := makeRoom_ok hm
      split at h
      · simp only [Prod.mk.injEq, Except.ok.injEq] at h
        obtain ⟨rfl, rfl⟩ := h
        refine ⟨Nat.le_refl _, ?_⟩
        rw [← ha, accepted, accepted, List.take_length, Array.toList_appendList, List.append_assoc]
      · rename_i hc
        -- Nothing waits, so what the medium takes comes next in the file.
        have hw := hw (Nat.not_lt.1 hc)
        rcases hm' : Sink.write f.medium bytes with ⟨answer, medium⟩
        rw [hm'] at h
        simp only [Prod.mk.injEq] at h
        obtain ⟨rfl, rfl⟩ := h
        obtain ⟨hle, htaken⟩ := Sink.accepted_write_ok hm'
        refine ⟨hle, ?_⟩
        rw [← ha, accepted, accepted, hw, htaken]
        simp
  accepted_write_error {s s' bytes cause} h := by
    unfold write at h
    dsimp only at h
    split at h
    · rename_i f hm
      simp only [Prod.mk.injEq] at h
      obtain ⟨_, rfl⟩ := h
      split at hm
      · obtain ⟨-, -, haccepted, -⟩ := s.drain_spec
        rwa [hm] at haccepted
      · simp at hm
    · rename_i f hm
      obtain ⟨ha, _⟩ := makeRoom_ok hm
      split at h
      · simp at h
      · rcases hm' : Sink.write f.medium bytes with ⟨answer, medium⟩
        rw [hm'] at h
        simp only [Prod.mk.injEq] at h
        obtain ⟨rfl, rfl⟩ := h
        rw [← ha, accepted, accepted, Sink.accepted_write_error hm']
  accepted_flush := accepted_flush
  accepted_sync f := congrArg (· ++ f.waiting.toList) (Sink.accepted_sync f.medium)

end OpenFile

end SeriesFile
