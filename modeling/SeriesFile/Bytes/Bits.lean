import SeriesFile.Bytes.Reader

/-!
# Sequences of bits

A page of changed bits is a sequence of bits, the most significant first, filled up with zeros to
whole bytes. `pack` and `unpack` go between the two, and `unpack_pack` says that packed bits come
back with the zeros; `ofNat` writes a number in a given width and `toNat` reads one.

Bits are read like bytes. `Reader.Reads.onBytes` takes what is known of a reader of bits over to the
bytes they are packed in.
-/

namespace SeriesFile.Bits

/-- The low `width` bits of a number, the most significant first. -/
def ofNat : (width : Nat) → Nat → List Bool
  | 0, _ => []
  | width + 1, n => n.testBit width :: ofNat width n

/-- The number that bits spell, continuing from those already read. -/
def toNatFrom (n : Nat) : List Bool → Nat
  | [] => n
  | b :: bits => toNatFrom (2 * n + b.toNat) bits

def toNat (bits : List Bool) : Nat :=
  toNatFrom 0 bits

def unpack (bytes : Bytes) : List Bool :=
  bytes.flatMap fun b => ofNat 8 b.toNat

/-- The byte of up to eight bits, with zeros for those that are missing. -/
def toByte (bits : List Bool) : UInt8 :=
  UInt8.ofNat (toNat (bits ++ List.replicate (8 - bits.length) false))

/-- Bits as bytes, filled up with zeros at the end. -/
def pack : List Bool → Bytes
  | b₇ :: b₆ :: b₅ :: b₄ :: b₃ :: b₂ :: b₁ :: b₀ :: bits =>
    toByte [b₇, b₆, b₅, b₄, b₃, b₂, b₁, b₀] :: pack bits
  | [] => []
  | bits => [toByte bits]

/-- Takes bits from the front of a sequence and leaves the rest. -/
abbrev Reader (α : Type) := StateT (List Bool) (Except Fault) α

namespace Reader

def bit : Reader Bool
  | [] => .error (.corrupted .bitsExhausted)
  | b :: bits => .ok (b, bits)

/-- The number in the next `width` bits, continuing from those already read. -/
def natFrom (n : Nat) : (width : Nat) → Reader Nat
  | 0 => pure n
  | width + 1 => do
    let b ← bit
    natFrom (2 * n + b.toNat) width

def nat (width : Nat) : Reader Nat :=
  natFrom 0 width

def fail {α : Type} (fault : Fault) : Reader α :=
  fun _ => .error fault

end Reader

/-- Reads bits from the front of bytes. Of the last byte that was begun, the other bits are
skipped. -/
def Reader.onBytes {α : Type} (read : Reader α) : SeriesFile.Reader α := fun bytes =>
  match read (unpack bytes) with
  | .ok (a, left) => .ok (a, bytes.drop (bytes.length - left.length / 8))
  | .error fault => .error fault

/-! ### Numbers and their bits -/

@[simp]
theorem length_ofNat (width n : Nat) : (ofNat width n).length = width := by
  induction width with
  | zero => rfl
  | succ width ih => simp [ofNat, ih]

theorem toNatFrom_eq (n : Nat) (bits : List Bool) :
    toNatFrom n bits = n * 2 ^ bits.length + toNat bits := by
  induction bits generalizing n with
  | nil => simp [toNatFrom, toNat]
  | cons b bits ih =>
    show toNatFrom (2 * n + b.toNat) bits = n * 2 ^ (bits.length + 1) + toNatFrom (2 * 0 + b.toNat) bits
    rw [ih, ih (2 * 0 + b.toNat), Nat.pow_succ', ← Nat.mul_assoc, Nat.mul_comm n 2]
    simp only [Nat.mul_zero, Nat.zero_add, Nat.add_mul, Nat.add_assoc]

theorem toNat_append (a b : List Bool) : toNat (a ++ b) = toNat a * 2 ^ b.length + toNat b := by
  suffices h : ∀ n, toNatFrom n (a ++ b) = toNatFrom (toNatFrom n a) b by
    rw [toNat, h, toNatFrom_eq]
    rfl
  induction a with
  | nil => exact fun n => rfl
  | cons x a ih => exact fun n => ih _

@[simp]
theorem toNat_ofNat (width n : Nat) : toNat (ofNat width n) = n % 2 ^ width := by
  induction width with
  | zero => simp [ofNat, toNat, toNatFrom, Nat.mod_one]
  | succ width ih =>
    show toNatFrom (2 * 0 + (n.testBit width).toNat) (ofNat width n) = _
    rw [toNatFrom_eq, ih, length_ofNat, Nat.toNat_testBit, Nat.mod_pow_succ, Nat.mul_zero,
      Nat.zero_add, Nat.add_comm, Nat.mul_comm (n / 2 ^ width % 2)]

theorem toNat_lt (bits : List Bool) : toNat bits < 2 ^ bits.length := by
  induction bits with
  | nil => decide
  | cons b bits ih =>
    show toNatFrom (2 * 0 + b.toNat) bits < 2 ^ (bits.length + 1)
    rw [toNatFrom_eq, Nat.pow_succ]
    cases b <;> simp only [Bool.toNat_false, Bool.toNat_true] <;> omega

/-- Only the low bits count. -/
theorem ofNat_add (width a b : Nat) : ofNat width (a * 2 ^ width + b) = ofNat width b := by
  suffices h : ∀ w ≤ width, ofNat w (a * 2 ^ width + b) = ofNat w b from h width (Nat.le_refl _)
  intro w hw
  induction w with
  | zero => rfl
  | succ w ih =>
    rw [ofNat, ofNat, ih (Nat.le_of_succ_le hw)]
    congr 1
    rw [Nat.testBit_eq_decide_div_mod_eq, Nat.testBit_eq_decide_div_mod_eq]
    have h : a * 2 ^ width = 2 ^ w * (2 * (a * 2 ^ (width - (w + 1)))) := by
      obtain ⟨k, rfl⟩ := Nat.exists_eq_add_of_le hw
      rw [Nat.add_sub_cancel_left, Nat.pow_add, Nat.pow_succ]
      ac_rfl
    rw [h, Nat.mul_add_div (Nat.two_pow_pos w), Nat.mul_add_mod]

@[simp]
theorem ofNat_toNat (bits : List Bool) : ofNat bits.length (toNat bits) = bits := by
  induction bits with
  | nil => rfl
  | cons b bits ih =>
    have hn : toNat (b :: bits) = b.toNat * 2 ^ bits.length + toNat bits := by
      show toNatFrom (2 * 0 + b.toNat) bits = _
      rw [toNatFrom_eq, Nat.mul_zero, Nat.zero_add]
    rw [List.length_cons, ofNat, hn, ofNat_add, ih]
    congr 1
    rw [Nat.testBit_eq_decide_div_mod_eq, Nat.mul_comm, Nat.mul_add_div (Nat.two_pow_pos _),
      Nat.div_eq_of_lt (toNat_lt bits)]
    cases b <;> rfl

/-! ### Bits and their bytes -/

@[simp]
theorem unpack_nil : unpack [] = [] := rfl

theorem length_unpack (bytes : Bytes) : (unpack bytes).length = 8 * bytes.length := by
  induction bytes with
  | nil => rfl
  | cons b bytes ih =>
    simp only [unpack, List.flatMap_cons, List.length_append, length_ofNat, List.length_cons] at ih ⊢
    omega

/-- Up to eight bits are those of their byte, in front of the zeros. -/
theorem ofNat_toByte {bits : List Bool} (h : bits.length ≤ 8) :
    ofNat 8 (toByte bits).toNat = bits ++ List.replicate (8 - bits.length) false := by
  have hl : (bits ++ List.replicate (8 - bits.length) false).length = 8 := by
    simp
    omega
  have hlt := toNat_lt (bits ++ List.replicate (8 - bits.length) false)
  rw [hl] at hlt
  rw [toByte, UInt8.toNat_ofNat_of_lt' hlt]
  have := ofNat_toNat (bits ++ List.replicate (8 - bits.length) false)
  rwa [hl] at this

/-- The number of zeros that fill bits up to whole bytes. -/
def padding (n : Nat) : Nat :=
  (8 - n % 8) % 8

theorem unpack_cons (b : UInt8) (bytes : Bytes) :
    unpack (b :: bytes) = ofNat 8 b.toNat ++ unpack bytes :=
  List.flatMap_cons

theorem unpack_append (a b : Bytes) : unpack (a ++ b) = unpack a ++ unpack b :=
  List.flatMap_append

theorem unpack_pack (bits : List Bool) :
    unpack (pack bits) = bits ++ List.replicate (padding bits.length) false := by
  fun_induction pack bits with
  | case1 b₇ b₆ b₅ b₄ b₃ b₂ b₁ b₀ bits ih =>
    have hp : padding (bits.length + 8) = padding bits.length := by
      rw [padding, Nat.add_mod_right, padding]
    rw [unpack_cons, ih, ofNat_toByte (by simp)]
    simp only [List.length_cons, hp]
    rfl
  | case2 => rfl
  | case3 bits h₈ h₀ =>
    have hl : bits.length < 8 := by
      rcases bits with _ | ⟨_, _ | ⟨_, _ | ⟨_, _ | ⟨_, _ | ⟨_, _ | ⟨_, _ | ⟨_, _ | ⟨_, bits⟩⟩⟩⟩⟩⟩⟩⟩
      case cons.cons.cons.cons.cons.cons.cons.cons => exact (h₈ _ _ _ _ _ _ _ _ bits rfl).elim
      all_goals simp
    have hp : 0 < bits.length := by
      cases bits with
      | nil => exact absurd rfl h₀
      | cons => simp
    rw [unpack_cons, ofNat_toByte (Nat.le_of_lt hl), unpack_nil, List.append_nil, padding,
      Nat.mod_eq_of_lt hl, Nat.mod_eq_of_lt (by omega)]

theorem length_pack (bits : List Bool) : (pack bits).length = (bits.length + 7) / 8 := by
  have h := congrArg List.length (unpack_pack bits)
  rw [length_unpack, List.length_append, List.length_replicate, padding] at h
  omega

/-! ### Reading back what was written -/

namespace Reader

/-- The reader gives `a` back from the bits, whatever follows them, and leaves what follows. -/
def Reads {α : Type} (read : Reader α) (bits : List Bool) (a : α) : Prop :=
  ∀ rest, read (bits ++ rest) = .ok (a, rest)

namespace Reads

variable {α β : Type}

theorem pure (a : α) : Reads (Pure.pure a) [] a :=
  fun _ => rfl

theorem bind {read : Reader α} {next : α → Reader β} {front back : List Bool} {a : α} {b : β}
    (h : Reads read front a) (h' : Reads (next a) back b) :
    Reads (read >>= next) (front ++ back) b := by
  intro rest
  show (read (front ++ back ++ rest) >>= fun taken => next taken.1 taken.2) = _
  rw [List.append_assoc, h]
  exact h' rest

/-- Once everything is read, what is left to do takes nothing. -/
theorem bind_nil {read : Reader α} {next : α → Reader β} {bits : List Bool} {a : α} {b : β}
    (h : Reads read bits a) (h' : Reads (next a) [] b) : Reads (read >>= next) bits b :=
  bits.append_nil ▸ h.bind h'

theorem map {read : Reader α} {bits : List Bool} {a : α} (h : Reads read bits a) (f : α → β) :
    Reads (do return f (← read)) bits (f a) :=
  h.bind_nil (.pure (f a))

theorem bit (b : Bool) : Reads Reader.bit [b] b :=
  fun _ => rfl

theorem natFrom (n : Nat) (bits : List Bool) :
    Reads (Reader.natFrom n bits.length) bits (toNatFrom n bits) := by
  induction bits generalizing n with
  | nil => exact .pure n
  | cons b bits ih => exact (bit b).bind (ih _)

theorem nat (width n : Nat) : Reads (Reader.nat width) (ofNat width n) (n % 2 ^ width) := by
  have h := natFrom 0 (ofNat width n)
  rwa [length_ofNat, show toNatFrom 0 (ofNat width n) = toNat (ofNat width n) from rfl,
    toNat_ofNat] at h

theorem fitting {width n : Nat} (h : n < 2 ^ width) :
    Reads (Reader.nat width) (ofNat width n) n := by
  have hn := nat width n
  rwa [Nat.mod_eq_of_lt h] at hn

/-- What is read from bits is read from the bytes they are packed in, with the zeros skipped. -/
theorem onBytes {read : Reader α} {bits : List Bool} {a : α} (h : Reads read bits a) :
    SeriesFile.Reader.Reads read.onBytes (pack bits) a := by
  intro rest
  have hl := congrArg List.length (unpack_pack bits)
  rw [length_unpack, List.length_append, List.length_replicate] at hl
  have hp : padding bits.length < 8 := Nat.mod_lt _ (by decide)
  have hleft : (List.replicate (padding bits.length) false ++ unpack rest).length / 8 = rest.length := by
    rw [List.length_append, List.length_replicate, length_unpack]
    omega
  simp only [Reader.onBytes, unpack_append, unpack_pack, List.append_assoc]
  rw [h]
  simp only [hleft]
  rw [List.length_append, Nat.add_sub_cancel, List.drop_left]

end Reads

end Reader

end SeriesFile.Bits
