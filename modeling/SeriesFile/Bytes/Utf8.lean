/-!
# UTF-8 text

`Utf8.decode` turns bytes into text, or says where they stop being UTF-8. A sequence is bad in one
of two ways: its first bytes can start no character, or the bytes end inside a character. The
position named is the number of well-formed bytes before it.

The ranges are those of the standard: the second byte of a character depends on the first, which
rules out overlong forms, surrogates and everything above U+10FFFF; later bytes are `80` to `BF`.
-/

namespace SeriesFile.Utf8

/-- Where and how bytes stop being UTF-8. -/
inductive Fault where
  /-- The first `length` bytes from position `index` on belong to no character. -/
  | malformed (length index : Nat)
  /-- The bytes end inside the character at position `index`. -/
  | incomplete (index : Nat)
  deriving DecidableEq, Repr

def Fault.message : Fault → String
  | malformed length index => s!"invalid utf-8 sequence of {length} bytes from index {index}"
  | incomplete index => s!"incomplete utf-8 byte sequence from index {index}"

/-- A byte that continues a character. -/
def isContinuation (b : UInt8) : Bool :=
  0x80 ≤ b && b ≤ 0xBF

/-- Whether two bytes can start a character of three bytes. -/
def startsThree (a b : UInt8) : Bool :=
  (a == 0xE0 && 0xA0 ≤ b && b ≤ 0xBF) || (0xE1 ≤ a && a ≤ 0xEC && isContinuation b) ||
  (a == 0xED && 0x80 ≤ b && b ≤ 0x9F) || (0xEE ≤ a && a ≤ 0xEF && isContinuation b)

/-- Whether two bytes can start a character of four bytes. -/
def startsFour (a b : UInt8) : Bool :=
  (a == 0xF0 && 0x90 ≤ b && b ≤ 0xBF) || (0xF1 ≤ a && a ≤ 0xF3 && isContinuation b) ||
  (a == 0xF4 && 0x80 ≤ b && b ≤ 0x8F)

/-- The first fault of bytes that follow `index` well-formed ones. -/
def firstFault (index : Nat) : List UInt8 → Option Fault
  | [] => none
  | a :: rest =>
    if a < 0x80 then firstFault (index + 1) rest
    else if 0xC2 ≤ a && a ≤ 0xDF then
      match rest with
      | [] => some (.incomplete index)
      | b :: rest =>
        if isContinuation b then firstFault (index + 2) rest else some (.malformed 1 index)
    else if 0xE0 ≤ a && a ≤ 0xEF then
      match rest with
      | [] => some (.incomplete index)
      | [b] => if startsThree a b then some (.incomplete index) else some (.malformed 1 index)
      | b :: c :: rest =>
        if !startsThree a b then some (.malformed 1 index)
        else if isContinuation c then firstFault (index + 3) rest
        else some (.malformed 2 index)
    else if 0xF0 ≤ a && a ≤ 0xF4 then
      match rest with
      | [] => some (.incomplete index)
      | [b] => if startsFour a b then some (.incomplete index) else some (.malformed 1 index)
      | [b, c] =>
        if !startsFour a b then some (.malformed 1 index)
        else if isContinuation c then some (.incomplete index)
        else some (.malformed 2 index)
      | b :: c :: d :: rest =>
        if !startsFour a b then some (.malformed 1 index)
        else if !isContinuation c then some (.malformed 2 index)
        else if isContinuation d then firstFault (index + 4) rest
        else some (.malformed 3 index)
    else some (.malformed 1 index)

def encode (s : String) : List UInt8 :=
  s.toByteArray.data.toList

def decode (bytes : List UInt8) : Except Fault String :=
  match String.fromUTF8? ⟨bytes.toArray⟩ with
  | some s => .ok s
  | none => .error ((firstFault 0 bytes).getD (.incomplete bytes.length))

@[simp]
theorem length_encode (s : String) : (encode s).length = s.utf8ByteSize := rfl

@[simp]
theorem decode_encode (s : String) : decode (encode s) = .ok s := by
  have h : (⟨(encode s).toArray⟩ : ByteArray) = s.toByteArray := by simp [encode]
  simp [decode, h, String.fromUTF8?, s.isValidUTF8, String.fromUTF8]

end SeriesFile.Utf8
