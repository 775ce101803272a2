import SeriesFile.Bytes.Reader

/-!
# Copies out of what was restored

Compressed data says, for a stretch that has occurred before, how far back it starts and how long
it is. The stretch may reach into what it is itself about to restore: then it repeats.
-/

namespace SeriesFile.Codec

/-- The byte `distance` bytes back. All bytes before the first are 0. -/
def byteBack (distance : Nat) (out : Array UInt8) : UInt8 :=
  if out.size < distance then 0 else out.getD (out.size - distance) 0

/-- Repeats `length` bytes, each from `distance` bytes back. -/
def repeatFrom (distance : Nat) : (length : Nat) → Array UInt8 → Array UInt8
  | 0, out => out
  | length + 1, out => repeatFrom distance length (out.push (byteBack distance out))

/-- Copies `length` bytes from `distance` bytes back, if there are so many. -/
def copyBack? (distance length : Nat) (out : Array UInt8) : Option (Array UInt8) :=
  if distance = 0 ∨ out.size < distance then none else some (repeatFrom distance length out)

/-- Cuts a list into pieces of `n + 1` elements; the last may be shorter. -/
def pieces {α : Type} (n : Nat) (l : List α) : List (List α) :=
  match l with
  | [] => []
  | a :: rest => (a :: rest.take n) :: pieces n (rest.drop n)
termination_by l.length
decreasing_by simp only [List.length_drop, List.length_cons]; omega

theorem flatten_pieces {α : Type} (n : Nat) (l : List α) : (pieces n l).flatten = l := by
  fun_induction pieces n l with
  | case1 => rfl
  | case2 a rest ih => rw [List.flatten_cons, ih, List.cons_append, List.take_append_drop]

/-- No piece is empty or longer than asked for. -/
theorem length_of_mem_pieces {α : Type} {n : Nat} {l piece : List α} (h : piece ∈ pieces n l) :
    0 < piece.length ∧ piece.length ≤ n + 1 := by
  fun_induction pieces n l with
  | case1 => simp at h
  | case2 a rest ih =>
    rcases List.mem_cons.1 h with rfl | h
    · simp only [List.length_cons, List.length_take]
      omega
    · exact ih h

theorem size_append_list (out : Array UInt8) (bytes : Bytes) :
    (out ++ bytes).size = out.size + bytes.length := by
  rw [← Array.length_toList, Array.toList_appendList, List.length_append, Array.length_toList]

/-- Bytes taken over one list after another are taken over as one. -/
theorem append_list_append (out : Array UInt8) (a b : Bytes) : out ++ a ++ b = out ++ (a ++ b) :=
  Array.ext' (by simp)

end SeriesFile.Codec
