import SeriesFile.Fault

/-!
# Readers of bytes

A `Reader` takes what it needs from the front of the bytes and leaves the rest, or fails. Readers
compose with `do`. What a part of a file is written as stands beside the reader of it; the two fit
when reading the written bytes, followed by anything, gives the part back and leaves exactly what
followed.

Numbers of fixed width are little-endian: `littleEndian` and `ofLittleEndian` are the two
directions, on natural numbers.

`Reader.Reads` says that a reader gives something back from its bytes. It composes like the readers
themselves (`Reads.bind`, `Reads.replicate`), so that a part made of parts is read back because they
are.
-/

namespace SeriesFile

-- Powers and sums of numbers are to mean the same in modules with and without Mathlib.

@[default_instance 20000]
instance (priority := 2000) corePow {α : Type} [NatPow α] : Pow α Nat := instPowNat

instance (priority := 2000) coreZero : Zero Nat := Zero.ofOfNat0

/-- A sequence of bytes. -/
abbrev Bytes := List UInt8

namespace Bytes

/-- The low `width` bytes of a number, the lowest first. -/
def littleEndian : (width : Nat) → Nat → Bytes
  | 0, _ => []
  | width + 1, n => UInt8.ofNat n :: littleEndian width (n / 256)

/-- The number whose bytes, the lowest first, are given. -/
def ofLittleEndian : Bytes → Nat
  | [] => 0
  | b :: bytes => b.toNat + 256 * ofLittleEndian bytes

/-- The first `n` bytes and the rest; `none` if there are fewer. -/
def split? : Nat → Bytes → Option (Bytes × Bytes)
  | 0, bytes => some ([], bytes)
  | _ + 1, [] => none
  | n + 1, b :: bytes => (split? n bytes).map fun (front, rest) => (b :: front, rest)

def u32 (n : UInt32) : Bytes := littleEndian 4 n.toNat

def u64 (n : UInt64) : Bytes := littleEndian 8 n.toNat

/-- A signed 32-bit number as four bytes, in two's complement. -/
def i32 (n : Int32) : Bytes := u32 n.toUInt32

/-- A signed 64-bit number as eight bytes, in two's complement. -/
def i64 (n : Int64) : Bytes := u64 n.toUInt64

def bool (b : Bool) : Bytes := [if b then 1 else 0]

@[simp]
theorem length_littleEndian (width n : Nat) : (littleEndian width n).length = width := by
  induction width generalizing n with
  | zero => rfl
  | succ width ih => simp [littleEndian, ih]

@[simp]
theorem length_u32 (n : UInt32) : (u32 n).length = 4 :=
  length_littleEndian 4 _

@[simp]
theorem length_u64 (n : UInt64) : (u64 n).length = 8 :=
  length_littleEndian 8 _

@[simp]
theorem length_i32 (n : Int32) : (i32 n).length = 4 :=
  length_u32 _

@[simp]
theorem length_i64 (n : Int64) : (i64 n).length = 8 :=
  length_u64 _

theorem ofLittleEndian_littleEndian (width n : Nat) :
    ofLittleEndian (littleEndian width n) = n % 256 ^ width := by
  induction width generalizing n with
  | zero => simp [littleEndian, ofLittleEndian, Nat.mod_one]
  | succ width ih =>
    simp only [littleEndian, ofLittleEndian, ih, UInt8.toNat_ofNat', Nat.reducePow]
    rw [Nat.pow_succ', Nat.mod_mul]

theorem split?_eq (n : Nat) (bytes : Bytes) :
    split? n bytes = if n ≤ bytes.length then some (bytes.take n, bytes.drop n) else none := by
  induction n generalizing bytes with
  | zero => simp [split?]
  | succ n ih =>
    cases bytes with
    | nil => simp [split?]
    | cons b bytes => by_cases h : n ≤ bytes.length <;> simp [split?, ih, h]

@[simp]
theorem split?_append (front rest : Bytes) :
    split? front.length (front ++ rest) = some (front, rest) := by
  simp [split?_eq]

end Bytes

/-- Takes something from the front of the bytes and leaves the rest, or fails. -/
abbrev Reader (α : Type) := StateT Bytes (Except Fault) α

namespace Reader

def fail {α : Type} (fault : Fault) : Reader α :=
  fun _ => .error fault

def take (n : Nat) : Reader Bytes := fun bytes =>
  match bytes.split? n with
  | some taken => .ok taken
  | none => .error (.writeFailure .inputExhausted)

def byte : Reader UInt8
  | [] => .error (.writeFailure .inputExhausted)
  | b :: bytes => .ok (b, bytes)

/-- Fails unless `need` bytes are left for a part of a page. -/
def require (part : PagePart) (need : Nat) : Reader Unit := fun bytes =>
  if bytes.length < need then .error (.corrupted (.tooShort part need bytes.length))
  else .ok ((), bytes)

/-- A number of the given width, the lowest byte first. -/
def littleEndian (width : Nat) : Reader Nat := do
  return (← take width).ofLittleEndian

def u32 : Reader UInt32 := do
  return UInt32.ofNat (← littleEndian 4)

def u64 : Reader UInt64 := do
  return UInt64.ofNat (← littleEndian 8)

def i32 : Reader Int32 := do
  return (← u32).toInt32

def i64 : Reader Int64 := do
  return (← u64).toInt64

def replicate {α : Type} (n : Nat) (read : Reader α) : Reader (List α) :=
  match n with
  | 0 => pure []
  | n + 1 => do
    let a ← read
    let rest ← replicate n read
    return a :: rest

/-- A byte that stands for something of the family `kind`. -/
def tag {α : Type} (kind : TagKind) (ofTag? : UInt8 → Option α) : Reader α := do
  let b ← byte
  match ofTag? b with
  | some a => return a
  | none => fail (.unknownTag kind b)

/-! ### Reading back what was written -/

/-- The reader gives `a` back from the bytes, whatever follows them, and leaves what follows. -/
def Reads {α : Type} (read : Reader α) (bytes : Bytes) (a : α) : Prop :=
  ∀ rest, read (bytes ++ rest) = .ok (a, rest)

namespace Reads

variable {α β : Type}

theorem pure (a : α) : Reads (Pure.pure a) [] a :=
  fun _ => rfl

theorem bind {read : Reader α} {next : α → Reader β} {front back : Bytes} {a : α} {b : β}
    (h : Reads read front a) (h' : Reads (next a) back b) :
    Reads (read >>= next) (front ++ back) b := by
  intro rest
  show (read (front ++ back ++ rest) >>= fun taken => next taken.1 taken.2) = _
  rw [List.append_assoc, h]
  exact h' rest

/-- Once everything is read, what is left to do takes nothing. -/
theorem bind_nil {read : Reader α} {next : α → Reader β} {bytes : Bytes} {a : α} {b : β}
    (h : Reads read bytes a) (h' : Reads (next a) [] b) : Reads (read >>= next) bytes b :=
  bytes.append_nil ▸ h.bind h'

theorem map {read : Reader α} {bytes : Bytes} {a : α} (h : Reads read bytes a) (f : α → β) :
    Reads (do return f (← read)) bytes (f a) :=
  h.bind_nil (.pure (f a))

theorem take (bytes : Bytes) : Reads (Reader.take bytes.length) bytes bytes := by
  intro rest
  simp [Reader.take]

theorem byte (b : UInt8) : Reads Reader.byte [b] b :=
  fun _ => rfl

theorem littleEndian (width n : Nat) :
    Reads (Reader.littleEndian width) (Bytes.littleEndian width n) (n % 256 ^ width) := by
  have h := (take (Bytes.littleEndian width n)).map Bytes.ofLittleEndian
  rwa [Bytes.length_littleEndian, Bytes.ofLittleEndian_littleEndian] at h

theorem u32 (n : UInt32) : Reads Reader.u32 (Bytes.u32 n) n := by
  have fits : n.toNat < 256 ^ 4 := n.toNat_lt
  have h := (littleEndian 4 n.toNat).map UInt32.ofNat
  rwa [Nat.mod_eq_of_lt fits, UInt32.ofNat_toNat] at h

theorem u64 (n : UInt64) : Reads Reader.u64 (Bytes.u64 n) n := by
  have fits : n.toNat < 256 ^ 8 := n.toNat_lt
  have h := (littleEndian 8 n.toNat).map UInt64.ofNat
  rwa [Nat.mod_eq_of_lt fits, UInt64.ofNat_toNat] at h

theorem i32 (n : Int32) : Reads Reader.i32 (Bytes.i32 n) n :=
  (u32 n.toUInt32).map UInt32.toInt32

theorem i64 (n : Int64) : Reads Reader.i64 (Bytes.i64 n) n :=
  (u64 n.toUInt64).map UInt64.toInt64

theorem tag {kind : TagKind} {ofTag? : UInt8 → Option α} {b : UInt8} {a : α}
    (h : ofTag? b = some a) : Reads (Reader.tag kind ofTag?) [b] a := by
  intro rest
  show (match ofTag? b with
    | some a => (Pure.pure a : Reader α)
    | none => fail (.unknownTag kind b)) rest = _
  rw [h]
  rfl

/-- Things of one kind, one after another, are read back if each of them is. -/
theorem replicate {read : Reader α} {write : α → Bytes} {as : List α}
    (h : ∀ a ∈ as, Reads read (write a) a) :
    Reads (Reader.replicate as.length read) (as.flatMap write) as := by
  induction as with
  | nil => exact .pure []
  | cons a as ih =>
    have ih := ih fun a ha => h a (.tail _ ha)
    rw [List.flatMap_cons]
    exact (h a (.head _)).bind (ih.map (a :: ·))

end Reads

end Reader

end SeriesFile
