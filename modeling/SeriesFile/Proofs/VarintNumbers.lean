import Mathlib.Tactic.ByContra
import SeriesFile.Proofs.Following

/-!
# Numbers and the varints that spell them

The number that bytes spell is the sum of their groups (`Varint.value_eq_sum`). Ten groups of seven
bits are more than a word holds: what is taken of bytes is their number unless it has more than 64
bits, which only the tenth byte can bring about (`Varint.taken_exact_iff`).

A number is written in as many bytes as it has groups, which is what `Varint.length` computes
without writing it. Bytes that are taken for a number are never fewer, since so few bytes spell no
number as large, and a front of the bytes written is no varint (`Varint.encode_shortest`).

Folding a signed number is one operation on its bits: twice the number, turned over if it is
negative (`Varint.zigzag_eq_xor`, `Varint.unzigzag_eq_xor`).
-/

namespace SeriesFile.Varint

/-! ### What is taken -/

/-- The groups of bytes that stand behind `k` others. -/
theorem sum_groups (k : Nat) (bytes : Bytes) :
    (bytes.mapIdx fun i b => b.toNat % 128 * 128 ^ (k + i)).sum = 128 ^ k * value bytes := by
  induction bytes generalizing k with
  | nil => rfl
  | cons b bytes ih =>
    have hfurther : (bytes.mapIdx fun i b => b.toNat % 128 * 128 ^ (k + (i + 1))) =
        bytes.mapIdx fun i b => b.toNat % 128 * 128 ^ (k + 1 + i) := by
      congr
      funext i b
      rw [Nat.add_assoc, Nat.add_comm 1 i]
    rw [List.mapIdx_cons, List.sum_cons, hfurther, ih, value, Nat.mul_add, Nat.add_zero,
      Nat.pow_succ, Nat.mul_assoc, Nat.mul_comm (128 ^ k) (b.toNat % 128)]

/-- The number that bytes spell, as the sum of their groups. -/
theorem value_eq_sum (bytes : Bytes) :
    value bytes = (bytes.mapIdx fun i b => b.toNat % 128 * 128 ^ i).sum := by
  have h := sum_groups 0 bytes
  simp only [Nat.zero_add, Nat.pow_zero, Nat.one_mul] at h
  exact h.symm

/-- What bytes spell behind others counts for more by the power of those. -/
theorem value_append (front back : Bytes) :
    value (front ++ back) = value front + 128 ^ front.length * value back := by
  induction front with
  | nil => simp [value]
  | cons b front ih =>
    rw [List.cons_append, value, value, ih, List.length_cons, Nat.pow_succ', Nat.mul_assoc]
    omega

/-- Groups of seven bits spell no more than they have room for. -/
theorem value_lt (bytes : Bytes) : value bytes < 128 ^ bytes.length := by
  induction bytes with
  | nil => exact Nat.one_pos
  | cons b bytes ih =>
    rw [value, List.length_cons, Nat.pow_succ']
    omega

/-- Up to ten bytes spell a number of more than 64 bits just if there are ten, and the last of them
is not 0 or 1. -/
theorem overflows_iff {taken : Bytes} (h : Ended taken) (hlength : taken.length ≤ maxLength) :
    2 ^ 64 ≤ value taken ↔ ∃ front b, taken = front ++ [b] ∧ front.length = 9 ∧ 2 ≤ b := by
  obtain ⟨front, b, rfl⟩ : ∃ front b, taken = front ++ [b] :=
    ⟨_, _, (List.dropLast_concat_getLast h.ne_nil).symm⟩
  have hb : b.toNat < 128 := ends_iff.1 h.last_lt
  -- The last byte counts for as many powers as there are bytes before it.
  have hvalue : value (front ++ [b]) = value front + 128 ^ front.length * b.toNat := by
    rw [value_append, value, value, Nat.mod_eq_of_lt hb, Nat.mul_zero, Nat.add_zero]
  have hfront := value_lt front
  constructor
  · intro hlarge
    have hnine : front.length = 9 := by
      rw [List.length_append] at hlength
      by_contra hne
      -- Nine groups have no more than 63 bits.
      have hshort : (front ++ [b]).length ≤ 9 := by
        have hten : front.length + 1 ≤ 10 := hlength
        rw [List.length_append]
        show front.length + 1 ≤ 9
        omega
      have hroom : value (front ++ [b]) < 128 ^ 9 :=
        Nat.lt_of_lt_of_le (value_lt _) (Nat.pow_le_pow_right (by decide) hshort)
      omega
    refine ⟨front, b, rfl, hnine, ?_⟩
    rw [hvalue, hnine] at hlarge
    rw [hnine] at hfront
    have htwo : 2 ≤ b.toNat := by omega
    exact UInt8.le_iff_toNat_le.2 htwo
  · rintro ⟨front', b', hbytes, hnine, hb'⟩
    obtain ⟨rfl, hlast⟩ := List.append_inj' hbytes rfl
    obtain rfl : b = b' := List.head_eq_of_cons_eq hlast
    have htwo : 2 ≤ b.toNat := UInt8.le_iff_toNat_le.1 hb'
    rw [hvalue, hnine]
    omega

/-- What is taken is spelled by at most ten bytes, of whose number the low 64 bits count: it is
their number itself unless the tenth byte is 2 or more. Refused as too long is what has more than
ten bytes, and nothing else that ends. -/
theorem taken_exact_iff (bytes : Bytes) :
    (∀ v rest, decode bytes = (.ok v, rest) ∨ read bytes = (.ok v, rest) ∨
        Guarded.Reader.varint bytes = .ok (v, rest) →
      ∃ taken n, bytes = taken ++ rest ∧ Ended taken ∧ taken.length ≤ 10 ∧
        n = (taken.mapIdx fun i b => b.toNat % 128 * 128 ^ i).sum ∧ v.toNat = n % 2 ^ 64 ∧
        (v.toNat = n ↔ ¬∃ front b, taken = front ++ [b] ∧ front.length = 9 ∧ 2 ≤ b)) ∧
    ∀ taken rest, bytes = taken ++ rest → Ended taken →
      ((decode bytes).1 = .error (.corrupted .oversizedVarint) ↔ 10 < taken.length) ∧
      ((read bytes).1 = .error (.corrupted .oversizedVarint) ↔ 10 < taken.length) := by
  constructor
  · intro v rest hv
    rw [read_eq_ok_iff, Guarded.Reader.varint_eq_ok_iff, or_self, or_self] at hv
    obtain ⟨taken, hbytes, h, hlength, rfl⟩ := decode_eq_ok_iff.1 hv
    refine ⟨taken, value taken, hbytes, h, hlength, value_eq_sum taken, ?_⟩
    rw [← overflows_iff h hlength, UInt64.toNat_ofNat']
    exact ⟨rfl, by omega⟩
  · rintro taken rest rfl h
    -- More than ten bytes are refused by both readers, and no others that end.
    rcases Nat.lt_or_ge maxLength taken.length with hlong | hlength
    · obtain ⟨hdecode, hread⟩ := refused_of_long h hlong rest
      exact ⟨iff_of_true (congrArg Prod.fst hdecode) hlong,
        iff_of_true (congrArg Prod.fst hread) hlong⟩
    · rw [decode_of_ended h hlength, read_of_ended h hlength]
      exact ⟨iff_of_false nofun (Nat.not_lt.2 hlength), iff_of_false nofun (Nat.not_lt.2 hlength)⟩

/-- Two bytes give the number that they spell; ten bytes that spell 2 ^ 64 give another one; and
eleven bytes are refused, although they spell 0. -/
theorem taken_exact_iff_sample :
    read [0xAC, 0x02, 7] = (.ok 300, [7]) ∧
      300 = (([0xAC, 0x02] : Bytes).mapIdx fun i b => b.toNat % 128 * 128 ^ i).sum ∧
      decode (List.replicate 9 0x80 ++ [2, 5]) = (.ok 0, [5]) ∧
      0 ≠ ((List.replicate 9 0x80 ++ [2] : Bytes).mapIdx fun i b => b.toNat % 128 * 128 ^ i).sum ∧
      (decode (List.replicate 10 0x80 ++ [0] ++ [5])).1 = .error (.corrupted .oversizedVarint) := by
  have hread : read [0xAC, 0x02, 7] = (.ok 300, [7]) := rfl
  have hdecode : decode (List.replicate 9 0x80 ++ [2, 5]) = (.ok 0, [5]) := rfl
  obtain ⟨-, hlong⟩ := taken_exact_iff (List.replicate 10 0x80 ++ [0] ++ [5])
  refine ⟨hread, ?two, hdecode, ?ten, (hlong _ [5] rfl (by decide)).1.2 (by decide)⟩
  case two =>
    obtain ⟨taken, n, hbytes, -, -, rfl, -, hiff⟩ := (taken_exact_iff _).1 _ _ (.inr (.inl hread))
    obtain rfl : [0xAC, 0x02] = taken :=
      List.append_cancel_right (show [0xAC, 0x02] ++ [7] = taken ++ [7] from hbytes)
    apply hiff.2
    rintro ⟨front, b, hfront, hnine, -⟩
    have hlength := congrArg List.length hfront
    simp [hnine] at hlength
  case ten =>
    obtain ⟨taken, n, hbytes, -, -, rfl, -, hiff⟩ := (taken_exact_iff _).1 _ _ (.inl hdecode)
    obtain rfl : List.replicate 9 0x80 ++ [2] = taken := List.append_cancel_right hbytes
    exact fun hsum => hiff.1 hsum ⟨_, _, rfl, rfl, by decide⟩

/-! ### Lengths -/

/-- A number that reaches a power of 128 takes more bytes than the power says. -/
theorem lt_length_groups {limit k n : Nat} (hk : k < limit) (h : 128 ^ k ≤ n) :
    k < (groups limit n).length := by
  induction limit generalizing k n with
  | zero => contradiction
  | succ limit ih =>
    rw [groups]
    cases k with
    | zero => split <;> exact Nat.succ_pos _
    | succ k =>
      have hpos : 0 < 128 ^ k := Nat.pow_pos (by decide)
      rw [Nat.pow_succ] at h
      have hq : 128 ^ k ≤ n / 128 := (Nat.le_div_iff_mul_le (by decide)).2 h
      rw [if_neg (by omega), List.length_cons]
      exact Nat.succ_lt_succ (ih (Nat.lt_of_succ_lt_succ hk) hq)

/-- A number is written in as many bytes as `length` computes. -/
theorem length_encode (v : UInt64) : (encode v).length = length v := by
  rw [length]
  split
  · rename_i hzero
    rw [hzero]
    rfl
  · rename_i hzero
    have hnat : v.toNat ≠ 0 := fun h => hzero (UInt64.toNat_inj.1 h)
    -- Seven bits make a group, so the highest bit is in the group of this number.
    generalize hk : v.toNat.log2 / 7 = k
    have hlow : 128 ^ k ≤ v.toNat := by
      calc 128 ^ k = 2 ^ (7 * k) := (Nat.pow_mul 2 7 k).symm
        _ ≤ 2 ^ v.toNat.log2 := Nat.pow_le_pow_right (by decide) (by omega)
        _ ≤ v.toNat := Nat.log2_self_le hnat
    have hhigh : v.toNat < 128 ^ (k + 1) := by
      calc v.toNat < 2 ^ (v.toNat.log2 + 1) := Nat.lt_log2_self
        _ ≤ 2 ^ (7 * (k + 1)) := Nat.pow_le_pow_right (by decide) (by omega)
        _ = 128 ^ (k + 1) := Nat.pow_mul 2 7 (k + 1)
    have hten : k < maxLength := by
      have hlog : v.toNat.log2 < 64 := (Nat.log2_lt hnat).2 v.toNat_lt
      show k < 10
      omega
    have hle : (encode v).length ≤ k + 1 := length_groups_le maxLength hhigh
    have hlt : k < (encode v).length := lt_length_groups hten hlow
    omega

/-- Bytes that spell a number, or a larger one, are no fewer than those that are written of it. -/
theorem length_encode_le_of_value {v : UInt64} {taken : Bytes} (h : Ended taken)
    (hvalue : v.toNat ≤ value taken) : (encode v).length ≤ taken.length := by
  obtain ⟨k, hk⟩ := Nat.exists_eq_succ_of_ne_zero (mt List.eq_nil_of_length_eq_zero h.ne_nil)
  have hlt := value_lt taken
  rw [hk] at hlt ⊢
  exact length_groups_le maxLength (Nat.lt_of_le_of_lt hvalue hlt)

/-- Equally many bytes spell different numbers, if they differ and end. -/
theorem Ended.eq_of_value {taken other : Bytes} (h : Ended taken) (h' : Ended other)
    (hlength : taken.length = other.length) (hvalue : value taken = value other) :
    taken = other := by
  induction h generalizing other with
  | @last b hb =>
    obtain ⟨c, rfl⟩ := List.length_eq_one_iff.1 hlength.symm
    have hc := ended_singleton.1 h'
    rw [ends_iff] at hb hc
    have heq : b.toNat = c.toNat := by
      simp only [value] at hvalue
      omega
    rw [UInt8.toNat_inj.1 heq]
  | @further b bytes hb ended ih =>
    cases h' with
    | last hc => exact absurd (List.eq_nil_of_length_eq_zero (Nat.succ.inj hlength)) ended.ne_nil
    | @further c others hc ended' =>
      have hb' := b.toNat_lt
      have hc' := c.toNat_lt
      rw [ends_iff] at hb hc
      simp only [value] at hvalue
      -- The lowest group is the remainder, and the further ones spell the quotient.
      have heq : b.toNat = c.toNat := by omega
      rw [UInt8.toNat_inj.1 heq, ih ended' (Nat.succ.inj hlength) (by omega)]

/-! ### Folding by shifts -/

/-- What is left of a number shifted to its sign. -/
theorem shiftRight_63 (n : Int64) : n >>> 63 = if n < 0 then -1 else 0 := by
  have hshift : (n >>> 63).toInt = n.toInt / 2 ^ 63 := by
    show (n.toBitVec.sshiftRight 63).toInt = _
    rw [BitVec.toInt_sshiftRight, Int.shiftRight_eq_div_pow]
    rfl
  have hlow := n.le_toInt
  have hhigh := n.toInt_lt
  rw [← Int64.toInt_inj, hshift]
  split
  · rename_i h
    have hneg : n.toInt < 0 := Int64.lt_iff_toInt_lt.1 h
    show n.toInt / 2 ^ 63 = -1
    omega
  · rename_i h
    have hnonneg : ¬n.toInt < 0 := fun hneg => h (Int64.lt_iff_toInt_lt.2 hneg)
    show n.toInt / 2 ^ 63 = 0
    omega

/-- Folding is one operation on bits, whatever the sign. -/
theorem zigzag_eq_xor (n : Int64) : zigzag n = ((n <<< 1) ^^^ (n >>> 63)).toUInt64 := by
  have htwice : (n <<< 1).toUInt64 = n.toUInt64 <<< 1 := rfl
  rw [shiftRight_63, zigzag]
  split
  · rw [Int64.xor_neg_one, Int64.toUInt64_not, htwice]
  · rw [Int64.xor_zero, htwice]

/-- So is unfolding, where the lowest bit has the sign. -/
theorem unzigzag_eq_xor (v : UInt64) :
    unzigzag v = (v >>> 1).toInt64 ^^^ -(v &&& 1).toInt64 := by
  have hlowest : (v &&& 1).toNat = v.toNat % 2 := by
    rw [UInt64.toNat_and]
    exact Nat.and_two_pow_sub_one_eq_mod v.toNat 1
  rw [unzigzag]
  split
  · rename_i h
    have hzero : v &&& 1 = 0 := by
      rw [← UInt64.toNat_inj, hlowest, (even_iff v).1 h]
      rfl
    rw [hzero]
    exact Int64.xor_zero.symm
  · rename_i h
    have hone : v &&& 1 = 1 := by
      rw [even_iff] at h
      rw [← UInt64.toNat_inj, hlowest]
      show v.toNat % 2 = 1
      omega
    rw [hone]
    exact Int64.xor_neg_one.symm

/-! ### Shortest bytes -/

/-- A number is read back from its bytes, whatever follows them, and they are as many as `length`
says. No fewer bytes are read as this number, no other bytes as short spell it, and no front of them
is read at all. A signed number is read back as well: folding and unfolding, which are done by
shifts, undo each other. -/
theorem encode_shortest (v : UInt64) (n : Int64) :
    (∀ rest, decode (encode v ++ rest) = (.ok v, rest)) ∧
    (encode v).length = length v ∧ 1 ≤ length v ∧ length v ≤ 10 ∧
    (∀ bytes rest, decode bytes = (.ok v, rest) →
      (encode v).length + rest.length ≤ bytes.length) ∧
    (∀ taken, Ended taken → value taken = v.toNat → taken.length ≤ (encode v).length →
      taken = encode v) ∧
    (∀ front back, encode v = front ++ back → back ≠ [] →
      decode front = (.error (.corrupted .truncatedVarint), [])) ∧
    (∀ rest, decodeSigned (encodeSigned n ++ rest) = (.ok n, rest)) ∧
    (unzigzag (zigzag n) = n ∧ zigzag (unzigzag v) = v) ∧
    zigzag n = ((n <<< 1) ^^^ (n >>> 63)).toUInt64 ∧
    unzigzag v = (v >>> 1).toInt64 ^^^ -(v &&& 1).toInt64 := by
  have hten := length_encode_le v
  refine ⟨decode_encode_append v, length_encode v, ?least, length_encode v ▸ hten, ?shortest,
    ?only, ?fronts, decodeSigned_encodeSigned_append n, ⟨unzigzag_zigzag n, zigzag_unzigzag v⟩,
    zigzag_eq_xor n, unzigzag_eq_xor v⟩
  case least =>
    rw [← length_encode]
    exact List.length_pos_iff.2 (ended_encode v).ne_nil
  case shortest =>
    intro bytes rest hv
    obtain ⟨taken, rfl, h, -, hvalue⟩ := decode_eq_ok_iff.1 hv
    -- What is taken is the remainder of what the bytes spell, so they spell no less.
    have hle : v.toNat ≤ value taken := by
      rw [hvalue, UInt64.toNat_ofNat']
      exact Nat.mod_le _ _
    rw [List.length_append]
    exact Nat.add_le_add_right (length_encode_le_of_value h hle) _
  case only =>
    intro taken h hvalue hlength
    apply h.eq_of_value (ended_encode v)
    · exact Nat.le_antisymm hlength (length_encode_le_of_value h (Nat.le_of_eq hvalue.symm))
    · rw [hvalue, value_encode]
  case fronts =>
    intro front back hbytes hback
    have h : Unended front := Ended.unended_front (hbytes ▸ ended_encode v) hback
    apply decode_of_cut h
    have hlength := congrArg List.length hbytes
    have hpos := List.length_pos_iff.2 hback
    rw [List.length_append] at hlength
    show front.length < 10
    omega

/-- The largest of all, in ten bytes of which nine are refused; and the lowest of the signed. -/
theorem encode_shortest_sample :
    encode 0xFFFFFFFFFFFFFFFF = List.replicate 9 0xFF ++ [1] ∧ length 0xFFFFFFFFFFFFFFFF = 10 ∧
      decode (List.replicate 9 0xFF) = (.error (.corrupted .truncatedVarint), []) ∧
      unzigzag (zigzag Int64.minValue) = Int64.minValue := by
  have hbytes : encode 0xFFFFFFFFFFFFFFFF = List.replicate 9 0xFF ++ [1] := by decide
  obtain ⟨-, hlength, -, -, -, -, hfronts, -, ⟨hback, -⟩, -⟩ :=
    encode_shortest 0xFFFFFFFFFFFFFFFF Int64.minValue
  exact ⟨hbytes, hlength.symm.trans (congrArg List.length hbytes),
    hfronts _ [1] hbytes (by decide), hback⟩

end SeriesFile.Varint
