import Mathlib.Data.List.Perm.Subperm
import SeriesFile.Proofs.Accounts
import SeriesFile.Proofs.Chunks

/-!
# Through the buffers

A point enters the buffer of its series (`Buffered`), and a buffer is emptied when its points are
written as a chunk (`Chunked`). Whatever an operation does with points, it puts some into buffers
first (`AllBuffered`) and then writes the chunks of some buffers, one after another (`Drains`), or
of all that have points (`Flushes`).

What a writer counts follows from these two steps alone: it counts what it has (`Tallies`).
-/

namespace SeriesFile.Writer

variable {σ : Type} {w w₁ w' : Writer σ} {key : SeriesKey}

/-! ### Series with buffered points -/

/-- A series has buffered points. -/
def Filled (w : Writer σ) (key : SeriesKey) : Prop :=
  ∃ b, w.buffers.find? key = some b ∧ b.isEmpty = false

/-- The buffer of a series that is not filled is empty. -/
theorem isEmpty_of_not_filled (h : ¬w.Filled key) {b : Buffer}
    (hb : w.buffers.find? key = some b) : b.isEmpty = true := by
  by_contra hne
  exact h ⟨b, hb, by simpa using hne⟩

/-- What is pending is what is filled: the list that the program goes through, told without its
order. -/
theorem mem_pending_iff : key ∈ w.pending ↔ w.Filled key := by
  simp [pending, Filled, SeriesTable.find?_eq_some_iff]

/-- And it is in the order of the series. -/
theorem ascends_pending (w : Writer σ) : w.pending.Pairwise fun a b => compare a b = .lt :=
  List.pairwise_map.2 (w.buffers.ascending.filter _)

/-- Every series has one buffer, so it is pending once at most. -/
theorem nodup_pending (w : Writer σ) : w.pending.Nodup :=
  w.buffers.nodup_keys.sublist (List.filter_sublist.map Prod.fst)

/-- If no series is filled that was not, and one no more that was, there are fewer. -/
theorem length_pending_lt (h : ∀ k, w'.Filled k → w.Filled k) (hkey : w.Filled key)
    (hkey' : ¬w'.Filled key) : w'.pending.length < w.pending.length := by
  -- What is still pending was pending before and is not this series.
  have hsubset : w'.pending ⊆ w.pending.erase key := by
    intro k hk
    have hk := mem_pending_iff.1 hk
    have hne : k ≠ key := fun heq => hkey' (heq ▸ hk)
    exact (List.mem_erase_of_ne hne).2 (mem_pending_iff.2 (h k hk))
  have hle := (List.subperm_of_subset w'.nodup_pending hsubset).length_le
  have hmem := mem_pending_iff.2 hkey
  have hpos := List.length_pos_of_mem hmem
  rw [List.length_erase_of_mem hmem] at hle
  omega

/-- The larger one of the buffer found so far and another, if that has points at all. -/
def larger (best : Option (SeriesKey × Nat)) (entry : SeriesKey × Buffer) :
    Option (SeriesKey × Nat) :=
  match best with
  | some (_, size) => if size < entry.2.rawBytes then some (entry.1, entry.2.rawBytes) else best
  | none => if 0 < entry.2.rawBytes then some (entry.1, entry.2.rawBytes) else none

/-- Whatever the fold finds, it started with or met on the way: by induction on the entries, with
the best one so far generalised. -/
theorem foldl_larger_some {entries : List (SeriesKey × Buffer)} {best : Option (SeriesKey × Nat)}
    {found : SeriesKey × Nat} (h : entries.foldl larger best = some found) :
    best = some found ∨ ∃ entry ∈ entries, entry.1 = found.1 ∧ 0 < entry.2.rawBytes := by
  induction entries generalizing best with
  | nil => exact .inl h
  | cons entry entries ih =>
    rcases ih h with hlarger | ⟨other, hmem, hother⟩
    · unfold larger at hlarger
      split at hlarger
      · split at hlarger
        · rename_i hlt
          refine .inr ⟨entry, .head _, ?_, Nat.zero_lt_of_lt hlt⟩
          rw [← Option.some.inj hlarger]
        · exact .inl hlarger
      · split at hlarger
        · rename_i hpos
          refine .inr ⟨entry, .head _, ?_, hpos⟩
          rw [← Option.some.inj hlarger]
        · contradiction
    · exact .inr ⟨other, .tail _ hmem, hother⟩

/-- Only if no entry has bytes is none found. -/
theorem foldl_larger_none {entries : List (SeriesKey × Buffer)} {best : Option (SeriesKey × Nat)}
    (h : entries.foldl larger best = none) :
    best = none ∧ ∀ entry ∈ entries, entry.2.rawBytes = 0 := by
  induction entries generalizing best with
  | nil => exact ⟨h, fun _ hmem => (List.not_mem_nil hmem).elim⟩
  | cons entry entries ih =>
    obtain ⟨hlarger, hrest⟩ := ih h
    unfold larger at hlarger
    split at hlarger
    · split at hlarger <;> contradiction
    · split at hlarger
      · contradiction
      · rename_i hzero
        refine ⟨rfl, fun other hmem => ?_⟩
        rcases List.mem_cons.1 hmem with rfl | hmem
        · exact Nat.eq_zero_of_not_pos hzero
        · exact hrest other hmem

/-- The largest buffer is one that has bytes. -/
theorem largest?_eq_some (h : w.largest? = some key) :
    ∃ b, w.buffers.find? key = some b ∧ 0 < b.rawBytes := by
  obtain ⟨found, hfold, rfl⟩ := Option.map_eq_some_iff.1 h
  rcases foldl_larger_some hfold with hnone | ⟨⟨k, b⟩, hmem, rfl, hpos⟩
  · contradiction
  · exact ⟨b, SeriesTable.find?_eq_some_iff.2 hmem, hpos⟩

/-- There is no largest buffer only if none has bytes. -/
theorem largest?_eq_none (h : w.largest? = none) {b : Buffer}
    (hb : w.buffers.find? key = some b) : b.rawBytes = 0 :=
  (foldl_larger_none (Option.map_eq_none_iff.1 h)).2 (key, b) (SeriesTable.find?_eq_some_iff.1 hb)

/-! ### Points that enter -/

/-- A point was put into the buffer of its series, which is then full or not. -/
inductive Buffered (key : SeriesKey) (p : Point) : Bool → Writer σ → Writer σ → Prop
  | mk {w : Writer σ} {b b' : Buffer} (found : w.buffers.find? key = some b)
      (points : b'.points = b.points ++ [p]) (length : b'.length = b.length + 1)
      (rawBytes : b'.rawBytes = b.rawBytes + Buffer.cost p.value)
      (earlier : b.lastTime ≠ some p.time) (last : b'.lastTime = some p.time) :
      Buffered key p (b'.isFull w.options) w { w with
        buffers := w.buffers.insert key b'
        bufferedBytes := w.bufferedBytes + Buffer.cost p.value
        pointsWritten := w.pointsWritten + 1 }

/-- Points of one time were put into the buffers of their series, of which some are then full. -/
inductive AllBuffered (time : Int64) : List SeriesKey → Writer σ → Writer σ → Prop
  | nil (w : Writer σ) : AllBuffered time [] w w
  | cons {key : SeriesKey} {value : Value} {full : Bool} {others : List SeriesKey}
      {w w₁ w' : Writer σ} (first : Buffered key ⟨time, value⟩ full w w₁)
      (rest : AllBuffered time others w₁ w') :
      AllBuffered time (if full then key :: others else others) w w'

/-! ### Buffers that are emptied -/

variable [Compressor]

/-- The points of a buffer were written as the chunk of a run. -/
inductive Chunked (run : Run) : Writer σ → Writer σ → Prop
  | mk {w : Writer σ} {b : Buffer} (found : w.buffers.find? run.key = some b)
      (filled : b.isEmpty = false) (times : run.times = b.times) (column : run.column = b.column)
      (output : Output σ) (device : Option String) (index : SeriesTable SeriesEntry) :
      Chunked run w { w with
        output
        device
        index
        buffers := w.buffers.insert run.key b.emptied
        bufferedBytes := w.bufferedBytes - b.rawBytes
        chunksFlushed := w.chunksFlushed + 1 }

/-- Some buffers were written as the chunks of some runs, one after another. -/
inductive Drains : Writer σ → List Run → Writer σ → Prop
  | done (w : Writer σ) : Drains w [] w
  | chunk {w w₁ w' : Writer σ} {run : Run} {runs : List Run} (first : Chunked run w w₁)
      (rest : Drains w₁ runs w') : Drains w (run :: runs) w'

namespace Chunked

variable {run : Run}

theorem options_eq (h : Chunked run w w') : w'.options = w.options := by
  cases h
  rfl

/-- The buffer of the run is emptied, the others stay. -/
theorem find?_eq (h : Chunked run w w') (k : SeriesKey) :
    w'.buffers.find? k =
      if run.key = k then (w.buffers.find? k).map Buffer.emptied else w.buffers.find? k := by
  obtain ⟨found⟩ := h
  rw [SeriesTable.find?_insert]
  split
  · rename_i hkey
    rw [← hkey, found]
    rfl
  · rfl

/-- The buffers of other series are not touched. -/
theorem find?_of_ne (h : Chunked run w w') {k : SeriesKey} (hk : k ≠ run.key) :
    w'.buffers.find? k = w.buffers.find? k := by
  rw [h.find?_eq, if_neg hk.symm]

/-- After its chunk was written a series has no points in its buffer. -/
theorem not_filled (h : Chunked run w w') : ¬w'.Filled run.key := by
  rintro ⟨b, hb, hfilled⟩
  rw [h.find?_eq, if_pos rfl] at hb
  obtain ⟨b, -, rfl⟩ := Option.map_eq_some_iff.1 hb
  contradiction

end Chunked

namespace Drains

variable {new more : List Run}

theorem single {run : Run} (h : Chunked run w w') : Drains w [run] w' :=
  .chunk h (.done w')

/-- Chunks after chunks. -/
theorem trans (h : Drains w new w₁) (h' : Drains w₁ more w') : Drains w (new ++ more) w' := by
  induction h with
  | done _ => exact h'
  | chunk first _ ih => exact .chunk first (ih h')

theorem options_eq (h : Drains w new w') : w'.options = w.options := by
  induction h with
  | done _ => rfl
  | chunk first _ ih => exact ih.trans first.options_eq

/-- A buffer that still has points is as it was. -/
theorem find?_of_filled (h : Drains w new w') {b : Buffer} (hb : w'.buffers.find? key = some b)
    (hfilled : b.isEmpty = false) : w.buffers.find? key = some b := by
  induction h with
  | done _ => exact hb
  | chunk first _ ih =>
    have hb := ih hb
    rw [first.find?_eq] at hb
    split at hb
    · obtain ⟨b, -, rfl⟩ := Option.map_eq_some_iff.1 hb
      contradiction
    · exact hb

/-- Series are emptied on the way and not filled. -/
theorem filled (h : Drains w new w') (hkey : w'.Filled key) : w.Filled key := by
  obtain ⟨b, hb, hfilled⟩ := hkey
  exact ⟨b, h.find?_of_filled hb hfilled, hfilled⟩

/-- The points of every run are those that a buffer had. -/
theorem exists_buffer (h : Drains w new w') {run : Run} (hr : run ∈ new) :
    ∃ b, w.buffers.find? run.key = some b ∧ b.isEmpty = false ∧ run.points = b.points := by
  induction h with
  | done _ => contradiction
  | @chunk w w₁ w' other _ first _ ih =>
    rcases List.mem_cons.1 hr with rfl | hr
    · obtain ⟨found, filled, times, column⟩ := first
      exact ⟨_, found, filled, by rw [Run.points, times, column, Buffer.points]⟩
    · -- A later run had its points already before the first one was written.
      obtain ⟨b, hb, hfilled, hpoints⟩ := ih hr
      exact ⟨b, (single first).find?_of_filled hb hfilled, hfilled, hpoints⟩

/-- A series that had its turn has none left at the end. -/
theorem not_filled (h : Drains w new w') {run : Run} (hr : run ∈ new) : ¬w'.Filled run.key := by
  induction h with
  | done _ => contradiction
  | chunk first rest ih =>
    rcases List.mem_cons.1 hr with rfl | hr
    · -- It was emptied at once, and nothing fills it afterwards.
      exact fun hfilled => first.not_filled (rest.filled hfilled)
    · exact ih hr

/-- No buffer is written twice, as it stays empty. -/
theorem nodup_keys (h : Drains w new w') : (new.map Run.key).Nodup := by
  induction h with
  | done _ => exact .nil
  | chunk first rest ih =>
    refine List.nodup_cons.2 ⟨?_, ih⟩
    intro hmem
    obtain ⟨run, hr, hkey⟩ := List.mem_map.1 hmem
    obtain ⟨b, hb, hfilled, -⟩ := rest.exists_buffer hr
    rw [hkey] at hb
    exact first.not_filled ⟨b, hb, hfilled⟩

end Drains

/-- All buffers with points were written, in the order of their series. -/
structure Flushes (w : Writer σ) (new : List Run) (w' : Writer σ) : Prop where
  drains : Drains w new w'
  keys_eq : new.map Run.key = w.pending

namespace Flushes

variable {new : List Run}

/-- Every series with points has its run. -/
theorem exists_run (h : Flushes w new w') (hkey : w.Filled key) : ∃ run ∈ new, run.key = key := by
  rw [← mem_pending_iff, ← h.keys_eq] at hkey
  exact List.mem_map.1 hkey

/-- After a flush nothing is left in the buffers. -/
theorem not_filled (h : Flushes w new w') (key : SeriesKey) : ¬w'.Filled key := by
  intro hfilled
  obtain ⟨run, hr, rfl⟩ := h.exists_run (h.drains.filled hfilled)
  exact h.drains.not_filled hr hfilled

end Flushes

/-! ### Tallies -/

/-- What a writer counts is what it has: the bytes of its buffers, the points of its chunks and of
its buffers, and its chunks. -/
structure Tallies (runs : List Run) (w : Writer σ) : Prop where
  bytes : w.bufferedBytes = (w.buffers.values.map Buffer.rawBytes).sum
  points : w.pointsWritten =
    (runs.map fun run => run.times.length).sum + (w.buffers.values.map Buffer.length).sum
  chunks : w.chunksFlushed = runs.length

omit [Compressor] in
/-- New buffers have nothing to count. -/
theorem sum_new (registry : Registry) {f : Buffer → Nat} (hf : ∀ schema, f (.new schema) = 0) :
    ((registry.map Buffer.new).values.map f).sum = 0 := by
  apply SeriesTable.sum_eq_zero
  intro key b hb
  rw [SeriesTable.find?_map] at hb
  obtain ⟨schema, -, rfl⟩ := Option.map_eq_some_iff.1 hb
  exact hf schema

namespace Tallies

/-- A new writer has nothing and counts nothing. -/
theorem of_new {registry : Registry} (hbuffers : w.buffers = registry.map Buffer.new)
    (hbytes : w.bufferedBytes = 0) (hpoints : w.pointsWritten = 0) (hchunks : w.chunksFlushed = 0) :
    Tallies [] w where
  bytes := by rw [hbytes, hbuffers, sum_new registry fun _ => rfl]
  points := by
    rw [hpoints, hbuffers, sum_new registry fun _ => rfl]
    rfl
  chunks := hchunks

variable {runs : List Run} (h : Tallies runs w)
include h

/-- A point adds its cost to the bytes and one to the points, on both sides. -/
theorem buffered {p : Point} {full : Bool} (hb : Buffered key p full w w') : Tallies runs w' := by
  obtain @⟨_, b, b', found, -, length, rawBytes⟩ := hb
  have hbytes := SeriesTable.sum_insert found b' Buffer.rawBytes
  have hpoints := SeriesTable.sum_insert found b' Buffer.length
  refine ⟨?_, ?_, h.chunks⟩
  · have := h.bytes
    dsimp only
    omega
  · have := h.points
    dsimp only
    omega

/-- A chunk takes the bytes of its buffer off the count, and its points go from the buffers to the
chunks. -/
theorem chunked {run : Run} (hc : Chunked run w w') : Tallies (runs ++ [run]) w' := by
  obtain @⟨b, found, -, times⟩ := hc
  have hbytes := SeriesTable.sum_insert found b.emptied Buffer.rawBytes
  have hpoints := SeriesTable.sum_insert found b.emptied Buffer.length
  -- What is left of the buffer has neither bytes nor points.
  have hbytes' : b.emptied.rawBytes = 0 := rfl
  have hpoints' : b.emptied.length = 0 := rfl
  have hlength : run.times.length = b.length := congrArg List.length times
  refine ⟨?_, ?_, ?_⟩
  · have := h.bytes
    dsimp only
    omega
  · have := h.points
    rw [List.map_append, List.sum_append, List.map_singleton, List.sum_singleton]
    dsimp only
    omega
  · rw [List.length_append]
    exact congrArg (· + 1) h.chunks

/-- No buffer has more than all of them. -/
theorem rawBytes_le {b : Buffer} (hb : w.buffers.find? key = some b) :
    b.rawBytes ≤ w.bufferedBytes := by
  rw [h.bytes]
  exact SeriesTable.le_sum hb _

/-- Without bytes in any buffer there are none to count. -/
theorem bufferedBytes_eq_zero
    (hzero : ∀ key b, w.buffers.find? key = some b → b.rawBytes = 0) : w.bufferedBytes = 0 := by
  rw [h.bytes]
  exact SeriesTable.sum_eq_zero hzero

end Tallies

end SeriesFile.Writer
