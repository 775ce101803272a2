import SeriesFile.Writer

/-!
# Operations and the ledger

An `Operation` is one thing that a caller can ask of a writer, and `Writer.performAll` asks one
after another. The `Ledger` is what the caller can know without looking at the file: for every
series its type and the points that were accepted. It answers the operations by the rules for points
alone.
-/

namespace SeriesFile

/-- What a caller can ask of a writer. -/
inductive Operation where
  | write (key : SeriesKey) (time : Int64) (value : Value)
  | writeRecord (device : String) (time : Int64) (fields : List (String × Value))
  | flush
  | close
  | abort
  | drop
  deriving DecidableEq

/-- Whether an operation offers points. -/
def Operation.offers : Operation → Bool
  | write .. | writeRecord .. => true
  | flush | close | abort | drop => false

/-! ### Operations of a writer -/

namespace Writer

variable {σ : Type} [Sink σ] [Compressor] [Logarithm]

/-- The action that an operation stands for. -/
def action : Operation → Action σ Unit
  | .write key time value => write key time value
  | .writeRecord device time fields => writeRecord device time fields
  | .flush => flush
  | .close => close
  | .abort => fun w => .ok () w.abort
  | .drop => fun w => .ok () w.drop

/-- The answer to an operation, and the writer after it. -/
def perform (w : Writer σ) (op : Operation) : Except Fault Unit × Writer σ :=
  match action op w with
  | .ok () w => (.ok (), w)
  | .error fault w => (.error fault, w)

/-- An operation whose action succeeds is answered by that, and leaves what the action leaves. -/
theorem perform_ok {w w' : Writer σ} {op : Operation} (h : action op w = .ok () w') :
    w.perform op = (.ok (), w') := by
  simp only [perform, h]

/-- An action that fails leaves a writer too, and the operations after it meet that one. -/
theorem perform_error {w w' : Writer σ} {op : Operation} {fault : Fault}
    (h : action op w = .error fault w') : w.perform op = (.error fault, w') := by
  simp only [perform, h]

/-- The answers to operations, and the writer after them. -/
def performAll (w : Writer σ) : List Operation → List (Except Fault Unit) × Writer σ
  | [] => ([], w)
  | op :: ops =>
    let (answer, w) := w.perform op
    let (answers, w) := performAll w ops
    (answer :: answers, w)

/-- The writer after operations. -/
def after (w : Writer σ) (ops : List Operation) : Writer σ :=
  (w.performAll ops).2

/-- The first operation is answered, and the others by the writer after it. -/
theorem performAll_cons {w w' : Writer σ} {op : Operation} {answer : Except Fault Unit}
    (h : w.perform op = (answer, w')) (ops : List Operation) :
    w.performAll (op :: ops) = (answer :: (w'.performAll ops).1, (w'.performAll ops).2) := by
  rw [performAll, h]

@[simp]
theorem after_nil (w : Writer σ) : w.after [] = w := rfl

/-- After the first operation the others are asked of the writer it leaves: the equation for
inductions over a history. -/
@[simp]
theorem after_cons (w : Writer σ) (op : Operation) (ops : List Operation) :
    w.after (op :: ops) = (w.perform op).2.after ops := rfl

end Writer

/-! ### The ledger -/

/-- What was accepted for a series. -/
structure Account where
  dataType : DataType
  points : List Point
  deriving DecidableEq

/-- What was accepted for every series. -/
abbrev Ledger := SeriesTable Account

namespace Ledger

/-- The ledger of a registry, of whose series nothing was accepted yet. -/
def new (registry : Registry) : Ledger :=
  registry.map fun schema => ⟨schema.dataType, []⟩

/-- The points that were accepted for a series. -/
def points (l : Ledger) (key : SeriesKey) : List Point :=
  ((l.find? key).map Account.points).getD []

/-- The ledger with one more point, or why the point is refused: the series must be known, the value
of its type, and the time after that of its last point. -/
def accept (l : Ledger) (key : SeriesKey) (time : Int64) (value : Value) : Except Fault Ledger :=
  match l.find? key with
  | none => .error (.unknownSeries key)
  | some account =>
    let accepted := l.insert key { account with points := account.points ++ [⟨time, value⟩] }
    if value.dataType ≠ account.dataType then
      .error (.typeMismatch account.dataType value.dataType)
    else
      match account.points.getLast? with
      | none => .ok accepted
      | some last => if time ≤ last.time then .error (.outOfOrder last.time time) else .ok accepted

/-- The ledger with the fields of a record, one after another, or why one of them is refused. -/
def acceptRecord (l : Ledger) (device : String) (time : Int64) (fields : List (String × Value)) :
    Except Fault Ledger :=
  fields.foldlM (fun l field => l.accept ⟨device, field.1⟩ time field.2) l

/-- The answer to points that were offered, and the ledger after it. -/
def settle (l : Ledger) (accepted : Except Fault Ledger) : Except Fault Unit × Ledger :=
  match accepted with
  | .ok l => (.ok (), l)
  | .error fault => (.error fault, l)

/-- The answer to an operation, and the ledger after it: only points change it, and a record only
if all of its fields are accepted. -/
def perform (l : Ledger) : Operation → Except Fault Unit × Ledger
  | .write key time value => l.settle (l.accept key time value)
  | .writeRecord device time fields => l.settle (l.acceptRecord device time fields)
  | .flush | .close | .abort | .drop => (.ok (), l)

/-- The answers to operations, and the ledger after them. -/
def performAll (l : Ledger) : List Operation → List (Except Fault Unit) × Ledger
  | [] => ([], l)
  | op :: ops =>
    let (answer, l) := l.perform op
    let (answers, l) := performAll l ops
    (answer :: answers, l)

end Ledger

end SeriesFile
