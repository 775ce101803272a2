import SeriesFile.Bytes.Bits

/-!
# Bits of compressed data

Compressed data is read bit by bit, in one of two directions. Forward, every byte is read from its
lowest bit on, and a number has its lowest bit first. Backward, reading starts at the end of the
data, after the highest bit that is set there, and a number has its highest bit first.
-/

namespace SeriesFile.Codec

/-- Takes bits and leaves the rest, or finds the data malformed. -/
abbrev BitSource (α : Type) := StateT (List Bool) Option α

namespace BitSource

/-- The bits of some bytes in forward order. -/
def forward (bytes : Bytes) : List Bool :=
  bytes.flatMap fun b => (Bits.ofNat 8 b.toNat).reverse

/-- The bits of some bytes in backward order, up to a highest bit that only marks the end. -/
def backward (bytes : Bytes) : Option (List Bool) :=
  match bytes.getLast? with
  | none => none
  | some 0 => none
  -- The zeros in front, then the bit that marks the end.
  | some _ => some (((Bits.unpack bytes.reverse).dropWhile (!·)).drop 1)

def malformed {α : Type} : BitSource α := fun _ => none

def bit : BitSource Bool
  | [] => none
  | b :: bits => some (b, bits)

def bits : (n : Nat) → BitSource (List Bool)
  | 0 => pure []
  | n + 1 => do
    let b ← bit
    let rest ← bits n
    return b :: rest

def lowFirst (n : Nat) : BitSource Nat :=
  return Bits.toNat (← bits n).reverse

def highFirst (n : Nat) : BitSource Nat :=
  return Bits.toNat (← bits n)

/-- Skips to the next whole byte of forward bits. -/
def align : BitSource Unit := fun bits =>
  some ((), bits.drop (bits.length % 8))

/-- `n` whole bytes of forward bits. -/
def bytes : (n : Nat) → BitSource Bytes
  | 0 => pure []
  | n + 1 => do
    let b ← lowFirst 8
    let rest ← bytes n
    return UInt8.ofNat b :: rest

/-- What a source makes of forward bits, and the bytes that it has not begun. -/
def onBytes {α : Type} (source : BitSource α) (data : Bytes) : Option (α × Bytes) :=
  match source (forward data) with
  | some (a, left) => some (a, data.drop (data.length - left.length / 8))
  | none => none

/-! ### Reading back forward bits -/

/-- What a source makes of bits is handed on. -/
theorem bind_some {α β : Type} {source : BitSource α} {next : α → BitSource β}
    {bits rest : List Bool} {a : α} (h : source bits = some (a, rest)) :
    (source >>= next) bits = next a rest := by
  show (source bits >>= fun taken => next taken.1 taken.2) = _
  rw [h]
  rfl

theorem forward_cons (b : UInt8) (data : Bytes) :
    forward (b :: data) = (Bits.ofNat 8 b.toNat).reverse ++ forward data :=
  List.flatMap_cons

theorem forward_append (a b : Bytes) : forward (a ++ b) = forward a ++ forward b :=
  List.flatMap_append

theorem length_forward (data : Bytes) : (forward data).length = 8 * data.length := by
  induction data with
  | nil => rfl
  | cons b data ih =>
    rw [forward_cons, List.length_append, List.length_reverse, Bits.length_ofNat, ih,
      List.length_cons]
    omega

theorem toNat_reverse_forward (data : Bytes) :
    Bits.toNat (forward data).reverse = data.ofLittleEndian := by
  induction data with
  | nil => rfl
  | cons b data ih =>
    rw [forward_cons, List.reverse_append, List.reverse_reverse, Bits.toNat_append, ih,
      Bits.length_ofNat, Bits.toNat_ofNat, Nat.mod_eq_of_lt b.toNat_lt, Bytes.ofLittleEndian]
    omega

theorem bits_append (front rest : List Bool) :
    bits front.length (front ++ rest) = some (front, rest) := by
  induction front with
  | nil => rfl
  | cons b front ih =>
    show (bits front.length (front ++ rest) >>= fun taken => some (b :: taken.1, taken.2)) = _
    rw [ih]
    rfl

theorem lowFirst_append (front rest : List Bool) :
    lowFirst front.length (front ++ rest) = some (Bits.toNat front.reverse, rest) := by
  show (bits front.length (front ++ rest) >>= fun taken =>
    some (Bits.toNat taken.1.reverse, taken.2)) = _
  rw [bits_append]
  rfl

/-- A number of whole bytes is the number whose bytes, the lowest first, they are. -/
theorem lowFirst_forward (data : Bytes) (rest : List Bool) :
    lowFirst (8 * data.length) (forward data ++ rest) = some (data.ofLittleEndian, rest) := by
  have h := lowFirst_append (forward data) rest
  rwa [length_forward, toNat_reverse_forward] at h

theorem bytes_forward (data : Bytes) (rest : List Bool) :
    bytes data.length (forward data ++ rest) = some (data, rest) := by
  induction data with
  | nil => rfl
  | cons b data ih =>
    have hb : lowFirst 8 (forward [b] ++ (forward data ++ rest)) =
        some (b.toNat, forward data ++ rest) := by
      have h := lowFirst_forward [b] (forward data ++ rest)
      rwa [Bytes.ofLittleEndian, Bytes.ofLittleEndian, Nat.mul_zero, Nat.add_zero] at h
    rw [List.length_cons, ← List.singleton_append, forward_append, List.append_assoc]
    show (lowFirst 8 (forward [b] ++ (forward data ++ rest)) >>= fun first =>
      bytes data.length first.2 >>= fun taken =>
        some (UInt8.ofNat first.1 :: taken.1, taken.2)) = _
    rw [hb]
    show (bytes data.length (forward data ++ rest) >>= fun taken =>
        some (UInt8.ofNat b.toNat :: taken.1, taken.2)) = _
    rw [ih, UInt8.ofNat_toNat]
    rfl

end BitSource

end SeriesFile.Codec
