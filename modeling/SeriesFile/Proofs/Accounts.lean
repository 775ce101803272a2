import Mathlib.Tactic.ByContra
import SeriesFile.Proofs.Ledger
import SeriesFile.Proofs.Reading

/-!
# Buffers and accounts

The points of an account are those that were flushed and, after them, those of the buffer
(`Buffer.Keeps`). A buffer accepts a point exactly if the account does, and afterwards keeps the
account that has it too; flushing moves the points and changes nothing else. So the answers of
buffers do not depend on when they are flushed.
-/

namespace SeriesFile

namespace Buffer

/-- The bytes that points take up. -/
def costs (points : List Point) : Nat :=
  (points.map fun p => cost p.value).sum

/-- What more points take up is added. -/
theorem costs_append (points more : List Point) :
    costs (points ++ more) = costs points + costs more := by
  rw [costs, List.map_append, List.sum_append, costs, costs]

/-- A point takes up bytes, at least those of its timestamp. -/
theorem costs_pos {points : List Point} (h : points ≠ []) : 0 < costs points := by
  obtain ⟨p, points, rfl⟩ := List.exists_cons_of_ne_nil h
  simp only [costs, cost, List.map_cons, List.sum_cons]
  omega

/-- Without points nothing can be read from a buffer. -/
theorem points_of_isEmpty {b : Buffer} (h : b.isEmpty = true) : b.points = [] := by
  rw [points, List.isEmpty_iff.1 h]
  rfl

/-- Together with the points that were flushed before, a buffer holds all that were accepted. -/
structure Keeps (b : Buffer) (schema : Schema) (flushed accepted : List Point) : Prop where
  stored : b.schema = schema
  typed : b.column.dataType = schema.dataType
  parallel : b.times.length = b.column.length
  counted : b.rawBytes = costs b.points
  points : accepted = flushed ++ b.points
  last : b.lastTime = accepted.getLast?.map Point.time

variable {b : Buffer} {schema : Schema} {flushed accepted : List Point} {time : Int64}
  {value : Value}

/-- A new buffer has no points, and none were accepted. -/
theorem keeps_new (schema : Schema) : (new schema).Keeps schema [] [] where
  stored := rfl
  typed := Column.dataType_empty _
  parallel := by rw [← Column.length_values]; simp [new]
  counted := rfl
  points := by simp [points, new, Page.join]
  last := rfl

/-- Whether a buffer takes a point can be told from the points that were accepted. -/
theorem Keeps.check_eq (h : b.Keeps schema flushed accepted) :
    b.check time value =
      if value.dataType ≠ schema.dataType then
        .error (.typeMismatch schema.dataType value.dataType)
      else
        match accepted.getLast? with
        | none => .ok ()
        | some last =>
          if time ≤ last.time then .error (.outOfOrder last.time time) else .ok () := by
  rw [check, h.stored, h.last]
  cases accepted.getLast? <;> rfl

/-- A point that is not refused is taken to the end. -/
theorem Keeps.append_ok (h : b.Keeps schema flushed accepted) (hc : b.check time value = .ok ()) :
    ∃ b', b.append time value = .ok (cost value, b') ∧
      b'.Keeps schema flushed (accepted ++ [⟨time, value⟩]) := by
  -- A value of another type would have been refused.
  have htype : value.dataType = b.column.dataType := by
    rw [h.typed]
    by_contra hne
    rw [h.check_eq, if_pos hne] at hc
    contradiction
  obtain ⟨column, hpush, hvalues, hdataType, hlength⟩ := Column.push?_ok htype
  have hparallel : b.times.length = b.column.values.length := by
    rw [Column.length_values, h.parallel]
  have hpoints : Page.join (b.times ++ [time]) column = b.points ++ [⟨time, value⟩] := by
    rw [Page.join, hvalues, List.zipWith_append hparallel]
    rfl
  refine ⟨{ b with
    times := b.times ++ [time]
    column
    rawBytes := b.rawBytes + cost value
    lastTime := some time
    phase := .accumulating }, ?_, ?_⟩
  · rw [append, hc, ok_bind, hpush]
    rfl
  · refine ⟨h.stored, hdataType.trans h.typed, ?_, ?_, ?_, ?_⟩
    · simp [hlength, h.parallel]
    · show b.rawBytes + cost value = costs (Page.join (b.times ++ [time]) column)
      rw [hpoints, costs_append, h.counted]
      rfl
    · show _ = flushed ++ Page.join (b.times ++ [time]) column
      rw [hpoints, h.points, List.append_assoc]
    · simp

/-- Of two buffers of one account the points differ as those that were accepted do. -/
theorem Keeps.points_append {b' : Buffer} {more : List Point}
    (h : b.Keeps schema flushed accepted) (h' : b'.Keeps schema flushed (accepted ++ more)) :
    b'.points = b.points ++ more := by
  have hpoints := h'.points
  rw [h.points, List.append_assoc] at hpoints
  exact (List.append_cancel_left hpoints).symm

/-- A buffer has as many points as it counts. -/
theorem Keeps.length_points (h : b.Keeps schema flushed accepted) : b.points.length = b.length :=
  Page.length_join h.parallel

/-- Flushing moves the points out of the buffer. -/
theorem Keeps.emptied (h : b.Keeps schema flushed accepted) :
    b.emptied.Keeps schema (flushed ++ b.points) accepted where
  stored := h.stored
  typed := by rw [← h.stored]; exact Column.dataType_empty _
  parallel := (keeps_new b.schema).parallel
  counted := rfl
  points := by
    have hnew : b.emptied.points = [] :=
      (List.nil_append _).symm.trans (keeps_new b.schema).points.symm
    rw [hnew, List.append_nil, ← h.points]
  last := h.last

end Buffer

/-- The buffer of a series, if it has one, and what was flushed of it make up its account. -/
inductive Accounted : Option Schema → Option Buffer → Option Account → List Point → Prop
  | unknown (flushed : List Point) : Accounted none none none flushed
  | known {schema : Schema} {b : Buffer} {flushed accepted : List Point}
      (keeps : b.Keeps schema flushed accepted) :
      Accounted (some schema) (some b) (some ⟨schema.dataType, accepted⟩) flushed

namespace Accounted

variable {schema : Option Schema} {b : Buffer} {account : Option Account} {flushed : List Point}

/-- A series that has a buffer is registered, and the buffer keeps its account. -/
theorem keeps (h : Accounted schema (some b) account flushed) :
    ∃ s accepted, schema = some s ∧ account = some ⟨s.dataType, accepted⟩ ∧
      b.Keeps s flushed accepted := by
  cases h with
  | known keeps => exact ⟨_, _, rfl, rfl, keeps⟩

/-- A series without a buffer has no account. -/
theorem account_eq_none (h : Accounted schema none account flushed) : account = none := by
  cases h with
  | unknown => rfl

/-- A series without a buffer is not registered. -/
theorem schema_eq_none (h : Accounted schema none account flushed) : schema = none := by
  cases h with
  | unknown => rfl

/-- Emptying the buffer moves its points to those that were flushed. -/
theorem emptied (h : Accounted schema (some b) account flushed) :
    Accounted schema (some b.emptied) account (flushed ++ b.points) := by
  cases h with
  | known keeps => exact .known keeps.emptied

end Accounted

end SeriesFile
