import SeriesFile.Bytes.Reader

/-!
# Varints

A number written with seven bits to a byte, the lowest first; every byte but the last has its high
bit set. A 64-bit number takes at most ten bytes. Signed numbers are folded first, so that small
magnitudes of either sign stay short: 0, -1, 1, -2, … become 0, 1, 2, 3, ….

There are two ways to read one. `decode` works on bytes in memory and calls an unfinished number
corrupt. `read` works on a source that yields byte after byte and reports that the source ended.
Both stop after ten bytes, and both say what is left also when they fail.

What a varint is does not depend on its length: bytes of which the last alone lacks the high bit
(`Ended`) spell a number of any size (`value`). `encode` writes such bytes, and both readers take
them, if they are at most ten.
-/

namespace SeriesFile.Varint

/-- The most bytes a 64-bit number takes. -/
def maxLength : Nat := 10

/-- The groups of seven bits of a number, of which at most `limit` are written. -/
def groups : (limit : Nat) → Nat → Bytes
  | 0, _ => []
  | limit + 1, n =>
    if n < 128 then [UInt8.ofNat n] else UInt8.ofNat (n % 128 + 128) :: groups limit (n / 128)

def encode (n : UInt64) : Bytes :=
  groups maxLength n.toNat

/-- The number of bytes that `encode` writes: one for every seven bits begun, and one for zero. -/
def length (n : UInt64) : Nat :=
  if n = 0 then 1 else (n.toNat.log2 + 1 + 6) / 7

/-- The sum of the groups at the front, if they end after at most `more + 1` bytes. -/
def sumGroups : (more : Nat) → Bytes → Except Corruption Nat × Bytes
  | _, [] => (.error .truncatedVarint, [])
  | more, b :: bytes =>
    if b < 128 then (.ok b.toNat, bytes)
    else
      match more with
      | 0 => (.error .oversizedVarint, bytes)
      | more + 1 =>
        match sumGroups more bytes with
        | (.ok n, rest) => (.ok (b.toNat % 128 + 128 * n), rest)
        | (.error cause, rest) => (.error cause, rest)

/-- Takes a varint from bytes in memory. Of a number of ten bytes the low 64 bits count. -/
def decode (bytes : Bytes) : Except Fault UInt64 × Bytes :=
  match sumGroups (maxLength - 1) bytes with
  | (.ok n, rest) => (.ok (UInt64.ofNat n), rest)
  | (.error cause, rest) => (.error (.corrupted cause), rest)

/-- The bytes of a varint at the front of a source: up to the first without the high bit, and
never more than `limit`. Fails if the source ends before. -/
def collect : (limit : Nat) → Bytes → Except Fault Bytes × Bytes
  | 0, bytes => (.ok [], bytes)
  | _ + 1, [] => (.error (.writeFailure .inputExhausted), [])
  | limit + 1, b :: bytes =>
    if b < 128 then (.ok [b], bytes)
    else
      match collect limit bytes with
      | (.ok more, rest) => (.ok (b :: more), rest)
      | (.error fault, rest) => (.error fault, rest)

/-- Takes a varint from a source of bytes: the source is read first, then its bytes are decoded. -/
def read (bytes : Bytes) : Except Fault UInt64 × Bytes :=
  match collect maxLength bytes with
  | (.ok collected, rest) => ((decode collected).1, rest)
  | (.error fault, rest) => (.error fault, rest)

/-- Folds a signed number into an unsigned one: the sign becomes the lowest bit. -/
def zigzag (n : Int64) : UInt64 :=
  if n < 0 then ~~~(n.toUInt64 <<< 1) else n.toUInt64 <<< 1

def unzigzag (n : UInt64) : Int64 :=
  if n % 2 = 0 then (n >>> 1).toInt64 else ~~~(n >>> 1).toInt64

def encodeSigned (n : Int64) : Bytes :=
  encode (zigzag n)

def decodeSigned (bytes : Bytes) : Except Fault Int64 × Bytes :=
  match decode bytes with
  | (.ok n, rest) => (.ok (unzigzag n), rest)
  | (.error fault, rest) => (.error fault, rest)

/-! ### Numbers as bytes -/

/-- Of the bytes exactly the last lacks the high bit. -/
inductive Ended : Bytes → Prop where
  | last {b : UInt8} : b < 128 → Ended [b]
  | further {b : UInt8} {bytes : Bytes} : ¬b < 128 → Ended bytes → Ended (b :: bytes)

/-- The number that bytes spell, seven bits to a byte and the lowest first, however large it is. -/
def value : Bytes → Nat
  | [] => 0
  | b :: bytes => b.toNat % 128 + 128 * value bytes

theorem ends_iff {b : UInt8} : b < 128 ↔ b.toNat < 128 :=
  UInt8.lt_iff_toNat_lt

/-- The last group of a number is its byte. -/
theorem lastGroup {n : Nat} (h : n < 128) : (UInt8.ofNat n).toNat = n ∧ UInt8.ofNat n < 128 := by
  have hb : (UInt8.ofNat n).toNat = n := by
    rw [UInt8.toNat_ofNat']
    omega
  exact ⟨hb, ends_iff.2 (by rw [hb]; exact h)⟩

/-- Every other group has its high bit set. -/
theorem otherGroup (n : Nat) : (UInt8.ofNat (n % 128 + 128)).toNat = n % 128 + 128 ∧
    ¬UInt8.ofNat (n % 128 + 128) < 128 := by
  have hb : (UInt8.ofNat (n % 128 + 128)).toNat = n % 128 + 128 := by
    rw [UInt8.toNat_ofNat']
    omega
  refine ⟨hb, ?_⟩
  intro h
  rw [ends_iff, hb] at h
  exact absurd h (Nat.not_lt.2 (Nat.le_add_left 128 _))

/-- With the lowest group taken away, a number is below the next lower power. -/
theorem div_lt_pow {limit n : Nat} (h : n < 128 ^ (limit + 1)) : n / 128 < 128 ^ limit := by
  rw [Nat.div_lt_iff_lt_mul (by decide)]
  rwa [Nat.pow_succ] at h

/-- If its groups are all written, a number ends with the last of them. -/
theorem ended_groups {limit n : Nat} (h : n < 128 ^ (limit + 1)) : Ended (groups (limit + 1) n) := by
  induction limit generalizing n with
  | zero =>
    have hn : n < 128 := by simpa using h
    rw [groups, if_pos hn]
    exact .last (lastGroup hn).2
  | succ limit ih =>
    rw [groups]
    split
    · rename_i hn
      exact .last (lastGroup hn).2
    · exact .further (otherGroup n).2 (ih (div_lt_pow h))

theorem value_groups {limit n : Nat} (h : n < 128 ^ limit) : value (groups limit n) = n := by
  induction limit generalizing n with
  | zero =>
    have hn : n = 0 := by simpa using h
    rw [hn]
    rfl
  | succ limit ih =>
    rw [groups]
    split
    · rename_i hn
      rw [value, value, (lastGroup hn).1]
      omega
    · rw [value, ih (div_lt_pow h), (otherGroup n).1]
      omega

/-- A number below a power of 128 takes no more bytes than the power says. -/
theorem length_groups_le {k : Nat} (limit : Nat) {n : Nat} (h : n < 128 ^ (k + 1)) :
    (groups limit n).length ≤ k + 1 := by
  induction k generalizing limit n with
  | zero =>
    have hn : n < 128 := by simpa using h
    cases limit <;> simp [groups, hn]
  | succ k ih =>
    cases limit with
    | zero => simp [groups]
    | succ limit =>
      rw [groups]
      split
      · simp
      · rw [List.length_cons]
        exact Nat.succ_le_succ (ih limit (div_lt_pow h))

/-- A 64-bit number has no more groups than are written of it. -/
theorem toNat_lt_groups (n : UInt64) : n.toNat < 128 ^ maxLength :=
  Nat.lt_trans n.toNat_lt (by decide)

theorem ended_encode (n : UInt64) : Ended (encode n) :=
  ended_groups (toNat_lt_groups n)

theorem value_encode (n : UInt64) : value (encode n) = n.toNat :=
  value_groups (toNat_lt_groups n)

theorem length_encode_le (n : UInt64) : (encode n).length ≤ 10 :=
  length_groups_le maxLength (toNat_lt_groups n)

/-! ### Reading back -/

theorem sumGroups_of_ended {taken : Bytes} (h : Ended taken) {more : Nat}
    (hlength : taken.length ≤ more + 1) (rest : Bytes) :
    sumGroups more (taken ++ rest) = (.ok (value taken), rest) := by
  induction h generalizing more with
  | @last b hb =>
    have hvalue : value [b] = b.toNat := by
      rw [value, value]
      exact Nat.mod_eq_of_lt (ends_iff.1 hb)
    cases more <;> simp [sumGroups, hb, hvalue]
  | @further b bytes hb ended ih =>
    cases more with
    | zero => cases ended <;> simp at hlength
    | succ more =>
      have hsum := ih (Nat.le_of_succ_le_succ hlength)
      simp only [List.cons_append, sumGroups, hb, if_false, hsum, value]

theorem collect_of_ended {taken : Bytes} (h : Ended taken) {limit : Nat}
    (hlength : taken.length ≤ limit) (rest : Bytes) :
    collect limit (taken ++ rest) = (.ok taken, rest) := by
  induction h generalizing limit with
  | @last b hb =>
    cases limit with
    | zero => contradiction
    | succ limit => simp [collect, hb]
  | @further b bytes hb ended ih =>
    cases limit with
    | zero => contradiction
    | succ limit =>
      have hcollect := ih (Nat.le_of_succ_le_succ hlength)
      simp only [List.cons_append, collect, hb, if_false, hcollect]

/-- A varint of at most ten bytes is taken, and of its number the low 64 bits. -/
theorem decode_of_ended {taken : Bytes} (h : Ended taken) (hlength : taken.length ≤ maxLength)
    (rest : Bytes) : decode (taken ++ rest) = (.ok (UInt64.ofNat (value taken)), rest) := by
  have hsum : sumGroups (maxLength - 1) (taken ++ rest) = (.ok (value taken), rest) :=
    sumGroups_of_ended h hlength rest
  simp only [decode, hsum]

/-- What a source yields is decoded without what follows it. -/
theorem read_of_ended {taken : Bytes} (h : Ended taken) (hlength : taken.length ≤ maxLength)
    (rest : Bytes) : read (taken ++ rest) = (.ok (UInt64.ofNat (value taken)), rest) := by
  have hdecode := decode_of_ended h hlength []
  rw [List.append_nil] at hdecode
  simp only [read, collect_of_ended h hlength, hdecode]

theorem decode_encode_append (n : UInt64) (rest : Bytes) :
    decode (encode n ++ rest) = (.ok n, rest) := by
  rw [decode_of_ended (ended_encode n) (length_encode_le n), value_encode, UInt64.ofNat_toNat]

theorem read_encode_append (n : UInt64) (rest : Bytes) :
    read (encode n ++ rest) = (.ok n, rest) := by
  rw [read_of_ended (ended_encode n) (length_encode_le n), value_encode, UInt64.ofNat_toNat]

/-! ### Folding signed numbers -/

/-- The negative numbers are those whose pattern has the highest bit. -/
theorem neg_iff (n : Int64) : n < 0 ↔ 2 ^ 63 ≤ n.toUInt64.toNat := by
  have h : n.toInt = if 2 * n.toUInt64.toNat < 2 ^ 64 then (n.toUInt64.toNat : Int)
      else n.toUInt64.toNat - (2 : Int) ^ 64 := BitVec.toInt_eq_toNat_cond n.toBitVec
  have hx := n.toUInt64.toNat_lt
  rw [Int64.lt_iff_toInt_lt, show (0 : Int64).toInt = 0 from rfl, h]
  split <;> omega

theorem toNat_twice (x : UInt64) : (x <<< 1).toNat = 2 * x.toNat % 2 ^ 64 := by
  rw [UInt64.toNat_shiftLeft, show (1 : UInt64).toNat % 64 = 1 from rfl, Nat.shiftLeft_eq]
  omega

theorem toNat_half (x : UInt64) : (x >>> 1).toNat = x.toNat / 2 := by
  rw [UInt64.toNat_shiftRight, show (1 : UInt64).toNat % 64 = 1 from rfl, Nat.shiftRight_eq_div_pow]

theorem toNat_turned (x : UInt64) : (~~~x).toNat = 2 ^ 64 - 1 - x.toNat :=
  UInt64.toNat_not x

theorem even_iff (x : UInt64) : x % 2 = 0 ↔ x.toNat % 2 = 0 := by
  rw [← UInt64.toNat_inj, UInt64.toNat_mod]
  rfl

theorem unzigzag_zigzag (n : Int64) : unzigzag (zigzag n) = n := by
  have hx := n.toUInt64.toNat_lt
  have back (x : UInt64) (h : x.toNat = n.toUInt64.toNat) : x.toInt64 = n := by
    rw [UInt64.toNat_inj.1 h, Int64.toInt64_toUInt64]
  unfold zigzag
  split
  · rename_i h
    rw [neg_iff] at h
    have hz : (~~~(n.toUInt64 <<< 1)).toNat = 2 ^ 65 - 1 - 2 * n.toUInt64.toNat := by
      rw [toNat_turned, toNat_twice]
      omega
    rw [unzigzag, if_neg (by rw [even_iff, hz]; omega)]
    apply back (~~~(~~~(n.toUInt64 <<< 1) >>> 1))
    rw [toNat_turned, toNat_half, hz]
    omega
  · rename_i h
    rw [neg_iff] at h
    have hz : (n.toUInt64 <<< 1).toNat = 2 * n.toUInt64.toNat := by
      rw [toNat_twice]
      omega
    rw [unzigzag, if_pos (by rw [even_iff, hz]; omega)]
    exact back _ (by rw [toNat_half, hz]; omega)

theorem zigzag_unzigzag (n : UInt64) : zigzag (unzigzag n) = n := by
  have hx := n.toNat_lt
  unfold unzigzag
  split
  · rename_i h
    rw [even_iff] at h
    have hz : (n >>> 1).toInt64.toUInt64.toNat = n.toNat / 2 := toNat_half n
    rw [zigzag, if_neg (by rw [neg_iff, hz]; omega), ← UInt64.toNat_inj, toNat_twice, hz]
    omega
  · rename_i h
    rw [even_iff] at h
    have hz : (~~~(n >>> 1).toInt64).toUInt64.toNat = 2 ^ 64 - 1 - n.toNat / 2 := by
      rw [← toNat_half]
      exact toNat_turned _
    rw [zigzag, if_pos (by rw [neg_iff, hz]; omega), ← UInt64.toNat_inj, toNat_turned, toNat_twice,
      hz]
    omega

theorem decodeSigned_encodeSigned_append (n : Int64) (rest : Bytes) :
    decodeSigned (encodeSigned n ++ rest) = (.ok n, rest) := by
  simp only [decodeSigned, encodeSigned, decode_encode_append, unzigzag_zigzag]

end Varint

namespace Reader

/-- The reader that gives up what was left when it failed. -/
def ofResult {α : Type} (read : Bytes → Except Fault α × Bytes) : Reader α := fun bytes =>
  match read bytes with
  | (.ok a, rest) => .ok (a, rest)
  | (.error fault, _) => .error fault

/-- A varint in memory. -/
def varint : Reader UInt64 := ofResult Varint.decode

def signedVarint : Reader Int64 := ofResult Varint.decodeSigned

/-- A varint from a source of bytes. -/
def sourceVarint : Reader UInt64 := ofResult Varint.read

/-- A text: the number of its bytes, then its bytes. -/
def text : Reader String := do
  let length ← sourceVarint
  let bytes ← take length.toNat
  match Utf8.decode bytes with
  | .ok s => return s
  | .error fault => fail (.corrupted (.invalidName fault))

end Reader

/-- A text as the number of its bytes, then its bytes. -/
def Bytes.text (s : String) : Bytes :=
  Varint.encode (UInt64.ofNat s.utf8ByteSize) ++ Utf8.encode s

namespace Reader.Reads

theorem varint (n : UInt64) : Reads Reader.varint (Varint.encode n) n := by
  intro rest
  simp only [Reader.varint, ofResult, Varint.decode_encode_append]

theorem signedVarint (n : Int64) : Reads Reader.signedVarint (Varint.encodeSigned n) n := by
  intro rest
  simp only [Reader.signedVarint, ofResult, Varint.decodeSigned_encodeSigned_append]

theorem sourceVarint (n : UInt64) : Reads Reader.sourceVarint (Varint.encode n) n := by
  intro rest
  simp only [Reader.sourceVarint, ofResult, Varint.read_encode_append]

theorem text {s : String} (h : s.utf8ByteSize < 2 ^ 64) :
    Reads Reader.text (Bytes.text s) s := by
  apply (sourceVarint _).bind
  rw [UInt64.toNat_ofNat_of_lt' h, ← Utf8.length_encode]
  intro rest
  show (Reader.take (Utf8.encode s).length (Utf8.encode s ++ rest) >>= _) = _
  rw [take]
  show (match Utf8.decode (Utf8.encode s) with
    | .ok s => (Pure.pure s : Reader String)
    | .error fault => fail (.corrupted (.invalidName fault))) rest = _
  rw [Utf8.decode_encode]
  rfl

end Reader.Reads

end SeriesFile
