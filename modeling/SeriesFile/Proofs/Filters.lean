import Mathlib.Data.Nat.Bitwise
import SeriesFile.Proofs.Parts

/-!
# Filters never deny what was inserted

A bit of a filter is set just if it was before, or if it is at a position of an inserted series
(`Bloom.hasBit_foldl_insert_iff`). This tells what a filter answers
(`Bloom.mayContain_foldl_insert_iff`), and that neither the order nor the number of insertions
matters (`Bloom.foldl_insert_congr`). Bits are never taken back: a series is let through from its
insertion on, whatever else is inserted, and however often the filter is written and read back
(`Bloom.inserted_never_denied`).

The hash may be any function, and a filter may have any number of hashes. It needs words, fewer than
the number in front of them can tell (`Bloom.Sized`).
-/

namespace SeriesFile

/-- What is read a number of times is that many things. -/
theorem Reader.length_of_replicate {α : Type} {read : Reader α} {count : Nat} {bytes rest : Bytes}
    {as : List α} (h : Reader.replicate count read bytes = .ok (as, rest)) : as.length = count := by
  induction count generalizing bytes as with
  | zero =>
    cases h
    rfl
  | succ count ih =>
    obtain ⟨a, left, -, h⟩ := bind_ok.1 h
    obtain ⟨as', left', h', h⟩ := bind_ok.1 h
    cases h
    rw [List.length_cons, ih h']

namespace Bloom

/-! ### Bits in words -/

section

variable {words words' : List UInt64} {n m : Nat}

/-- The mask of a bit is a power of two. -/
theorem toNat_bit (n : Nat) : (bit n).toNat = 2 ^ (n % 64) := by
  have hlt : n % 64 < 64 := Nat.mod_lt n (by decide)
  have hword : n % 64 < UInt64.size := Nat.lt_trans hlt (by decide)
  rw [bit, UInt64.toNat_shiftLeft, UInt64.toNat_ofNat_of_lt' hword, Nat.mod_mod,
    show (1 : UInt64).toNat = 1 from rfl, Nat.shiftLeft_eq, Nat.one_mul,
    Nat.mod_eq_of_lt (Nat.pow_lt_pow_right (by decide) hlt)]

/-- A bit of the filter is a bit of one of its words. -/
theorem hasBit_iff :
    hasBit words n ↔ (words[n / 64]?.getD 0).toNat.testBit (n % 64) := by
  rw [hasBit, bne_iff_ne, ne_eq, ← UInt64.toNat_inj, UInt64.toNat_and, toNat_bit, Nat.land_comm,
    Nat.two_pow_and, show (0 : UInt64).toNat = 0 from rfl, Nat.mul_eq_zero]
  have hpos := Nat.two_pow_pos (n % 64)
  cases (words[n / 64]?.getD 0).toNat.testBit (n % 64) <;> simp

/-- Words are told by their bits. -/
theorem eq_of_hasBit (hlength : words.length = words'.length)
    (h : ∀ m, hasBit words m ↔ hasBit words' m) : words = words' := by
  apply List.ext_getElem hlength
  intro k hk hk'
  apply UInt64.toNat_inj.1
  apply Nat.eq_of_testBit_eq
  intro i
  rcases Nat.lt_or_ge i 64 with hi | hi
  · -- The bit `i` of the word `k` is the bit `64 * k + i` of the filter.
    have hbit := h (64 * k + i)
    have hword : (64 * k + i) / 64 = k := by omega
    have hplace : (64 * k + i) % 64 = i := by omega
    rw [hasBit_iff, hasBit_iff, hword, hplace, List.getElem?_eq_getElem hk,
      List.getElem?_eq_getElem hk', Option.getD_some, Option.getD_some] at hbit
    exact Bool.eq_iff_iff.2 hbit
  · -- Above the bits of a word there is nothing to compare.
    have high (w : UInt64) : w.toNat.testBit i = false :=
      Nat.testBit_lt_two_pow (Nat.lt_of_lt_of_le w.toNat_lt (Nat.pow_le_pow_right (by decide) hi))
    rw [high, high]

/-- Setting a bit keeps the number of words. -/
theorem length_setBit (words : List UInt64) (n : Nat) : (setBit words n).length = words.length :=
  List.length_modify ..

/-- Setting a bit sets it if there is a word for it, and leaves all others as they are. -/
theorem hasBit_setBit_iff :
    hasBit (setBit words n) m ↔ hasBit words m ∨ m = n ∧ m < words.length * 64 := by
  have hinside : m < words.length * 64 ↔ m / 64 < words.length :=
    (Nat.div_lt_iff_lt_mul (by decide)).symm
  rw [hasBit_iff, hasBit_iff, setBit, List.getElem?_modify, hinside]
  by_cases hm : m / 64 < words.length
  · rw [List.getElem?_eq_getElem hm]
    -- Within the word that is changed the bits are told apart by their places in it.
    by_cases hword : n / 64 = m / 64
    · have hsame : m = n ↔ n % 64 = m % 64 := by omega
      simp [hword, hm, hsame, UInt64.toNat_or, toNat_bit, Nat.testBit_two_pow]
    · have hother : m ≠ n := fun h => hword (by rw [h])
      simp [hword, hother]
  · rw [List.getElem?_eq_none (Nat.le_of_not_lt hm)]
    simp [hm]

/-- Setting bits keeps the number of words. -/
theorem length_foldl_setBit (words : List UInt64) (ns : List Nat) :
    (ns.foldl setBit words).length = words.length := by
  induction ns generalizing words with
  | nil => rfl
  | cons n ns ih => rw [List.foldl_cons, ih, length_setBit]

/-- The bits that are set after bits were set one after another. -/
theorem hasBit_foldl_setBit_iff {ns : List Nat} :
    hasBit (ns.foldl setBit words) m ↔ hasBit words m ∨ m ∈ ns ∧ m < words.length * 64 := by
  induction ns generalizing words with
  | nil => simp
  | cons n ns ih =>
    rw [List.foldl_cons, ih, hasBit_setBit_iff, length_setBit, List.mem_cons, or_assoc, or_and_right]

end

/-! ### Insertions -/

section

variable [PathHash] {b : Bloom} {keys others : List SeriesKey} {key : SeriesKey} {m : Nat}

/-- The positions of a series are inside a filter that has words. -/
theorem lt_of_mem_positions {size hashes : Nat} (hsize : 0 < size)
    (hm : m ∈ positions size hashes key) : m < size := by
  obtain ⟨seed, -, rfl⟩ := List.mem_map.1 hm
  exact Nat.mod_lt _ hsize

/-- An insertion keeps the size. -/
@[simp]
theorem size_insert (b : Bloom) (key : SeriesKey) : (b.insert key).size = b.size := by
  rw [size, insert, length_foldl_setBit, size]

/-- An insertion keeps the number of hashes. -/
@[simp]
theorem hashes_insert (b : Bloom) (key : SeriesKey) : (b.insert key).hashes = b.hashes :=
  rfl

/-- Insertions keep the size. -/
theorem size_foldl_insert (keys : List SeriesKey) (b : Bloom) :
    (keys.foldl insert b).size = b.size := by
  induction keys generalizing b with
  | nil => rfl
  | cons k keys ih => rw [List.foldl_cons, ih, size_insert]

/-- Insertions keep the number of hashes. -/
theorem hashes_foldl_insert (keys : List SeriesKey) (b : Bloom) :
    (keys.foldl insert b).hashes = b.hashes := by
  induction keys generalizing b with
  | nil => rfl
  | cons key keys ih => rw [List.foldl_cons, ih, hashes_insert]

/-- An insertion sets the bits at the positions of the series, all of which are inside the
filter. -/
theorem hasBit_insert_iff (hb : 0 < b.size) :
    hasBit (b.insert key).words m ↔ hasBit b.words m ∨ m ∈ positions b.size b.hashes.toNat key := by
  rw [insert, hasBit_foldl_setBit_iff]
  exact or_congr_right (and_iff_left_of_imp (lt_of_mem_positions hb))

/-- The bits that are set after series were inserted one after another. -/
theorem hasBit_foldl_insert_iff (hb : 0 < b.size) :
    hasBit (keys.foldl insert b).words m ↔
      hasBit b.words m ∨ ∃ key ∈ keys, m ∈ positions b.size b.hashes.toNat key := by
  induction keys generalizing b with
  | nil => simp
  | cons key keys ih =>
    rw [List.foldl_cons, ih (by rwa [size_insert]), hasBit_insert_iff hb, size_insert,
      hashes_insert, or_assoc]
    simp only [List.mem_cons, or_and_right, exists_or, exists_eq_left]

/-- A series is let through just if each of its bits was set before or is one of an inserted
series. -/
theorem mayContain_foldl_insert_iff (hb : 0 < b.size) : (keys.foldl insert b).mayContain key ↔
    ∀ m ∈ positions b.size b.hashes.toNat key,
      hasBit b.words m ∨ ∃ other ∈ keys, m ∈ positions b.size b.hashes.toNat other := by
  rw [mayContain, size_foldl_insert, hashes_foldl_insert, List.all_eq_true]
  simp only [hasBit_foldl_insert_iff hb]

/-- A series that was let through, or is among those inserted, is let through. -/
theorem mayContain_foldl_insert (hb : 0 < b.size) (h : b.mayContain key ∨ key ∈ keys) :
    (keys.foldl insert b).mayContain key := by
  rw [mayContain_foldl_insert_iff hb]
  intro m hm
  rcases h with h | h
  · exact .inl (List.all_eq_true.1 h m hm)
  · exact .inr ⟨key, h, hm⟩

/-- The same series, in whatever order and however often, make the same filter. -/
theorem foldl_insert_congr (hb : 0 < b.size) (h : ∀ key, key ∈ others ↔ key ∈ keys) :
    others.foldl insert b = keys.foldl insert b := by
  have hlength (keys : List SeriesKey) : (keys.foldl insert b).words.length * 64 = b.size :=
    size_foldl_insert keys b
  -- Equal membership gives equal bits, and bits tell the words.
  have hwords : (others.foldl insert b).words = (keys.foldl insert b).words := by
    apply eq_of_hasBit
    · have hsame := (hlength others).trans (hlength keys).symm
      omega
    · intro m
      simp only [hasBit_foldl_insert_iff hb, h]
  have hhashes : (others.foldl insert b).hashes = (keys.foldl insert b).hashes := by
    rw [hashes_foldl_insert, hashes_foldl_insert]
  generalize others.foldl insert b = first at hwords hhashes
  generalize keys.foldl insert b = second at hwords hhashes
  cases first
  cases second
  cases hwords
  cases hhashes
  rfl

end

/-! ### Sizes -/

/-- There are words, and their number has 32 bits. -/
structure Sized (b : Bloom) : Prop where
  pos : 0 < b.words.length
  lt : b.words.length < 2 ^ 32

section

variable {b : Bloom}

/-- A new filter has at least one word, whatever the rate. -/
theorem size_new_pos [Logarithm] (expected : Nat) (rateBits : UInt64) :
    0 < (new expected rateBits).size := by
  rw [size, new, List.length_replicate, wordsFor]
  omega

/-- A new filter can be written unless the rate asks for 2 ^ 32 words. -/
theorem sized_new [Logarithm] {expected : Nat} {rateBits : UInt64}
    (h : wordsFor expected (Float.ofBits rateBits) < 2 ^ 32) : (new expected rateBits).Sized where
  pos := Nat.pos_of_mul_pos_right (size_new_pos expected rateBits)
  lt := by
    rw [new, List.length_replicate]
    exact h

/-- A filter is read only if it is of a size that can be written. -/
theorem sized_of_read {bytes rest : Bytes} (h : read bytes = .ok (b, rest)) : b.Sized := by
  obtain ⟨count, left, -, h⟩ := Reader.bind_ok.1 h
  obtain ⟨hashes, left, -, h⟩ := Reader.bind_ok.1 h
  obtain ⟨reserved, left, -, h⟩ := Reader.bind_ok.1 h
  by_cases hzero : count = 0
  · rw [if_pos hzero] at h
    contradiction
  · rw [if_neg hzero] at h
    obtain ⟨words, left, hwords, h⟩ := Reader.bind_ok.1 h
    cases h
    have hlength : words.length = count.toNat := Reader.length_of_replicate hwords
    constructor
    · show 0 < words.length
      rw [hlength]
      exact Nat.pos_of_ne_zero fun h => hzero (UInt32.toNat_inj.1 h)
    · show words.length < 2 ^ 32
      rw [hlength]
      exact count.toNat_lt

/-- A filter with words has bits. -/
theorem Sized.size_pos (h : b.Sized) : 0 < b.size :=
  Nat.mul_pos h.pos (by decide)

/-- A filter that can be written is read back. -/
theorem Sized.reads (h : b.Sized) : Reader.Reads read b.write b :=
  Bloom.reads h.lt (List.ne_nil_of_length_pos h.pos)

/-- What is read back is what was written. -/
theorem Sized.eq_of_reread {again : Bloom} {rest left : Bytes} (h : b.Sized)
    (hread : read (b.write ++ rest) = .ok (again, left)) : again = b := by
  rw [h.reads rest] at hread
  cases hread
  rfl

variable [PathHash]

/-- An insertion keeps a filter one that can be written. -/
theorem Sized.insert (h : b.Sized) (key : SeriesKey) : (b.insert key).Sized := by
  have hlength : (b.insert key).words.length = b.words.length := length_foldl_setBit _ _
  constructor
  · rw [hlength]
    exact h.pos
  · rw [hlength]
    exact h.lt

/-- The number of bits has 64 bits itself, so the remainder of a hash is the same in a word. -/
theorem Sized.toNat_hash_mod (h : b.Sized) (key : SeriesKey) (seed : Nat) :
    (PathHash.hash (UInt64.ofNat seed) (Utf8.encode key.path) % UInt64.ofNat b.size).toNat =
      position b.size key seed := by
  have hsize : b.size < 2 ^ 64 := by
    have hlt := h.lt
    rw [size]
    omega
  rw [UInt64.toNat_mod, UInt64.toNat_ofNat_of_lt' hsize]
  rfl

end

/-! ### What becomes of a filter -/

section

variable [PathHash]

/-- One filter becomes another by insertions and by being written and read back. -/
inductive Becomes : Bloom → Bloom → Prop where
  | refl (b : Bloom) : Becomes b b
  | insert {b later : Bloom} (key : SeriesKey) : Becomes b later → Becomes b (later.insert key)
  | reread {b later again : Bloom} {rest left : Bytes} :
    Becomes b later → read (later.write ++ rest) = .ok (again, left) → Becomes b again

variable {b later : Bloom} {key : SeriesKey}

/-- Several insertions are one way to become another filter. -/
theorem becomes_foldl_insert (keys : List SeriesKey) (h : Becomes b later) :
    Becomes b (keys.foldl Bloom.insert later) := by
  induction keys generalizing later with
  | nil => exact h
  | cons key keys ih => exact ih (h.insert key)

/-- Whatever a filter becomes can be written if it can. -/
theorem Becomes.sized (h : Becomes b later) (hb : b.Sized) : later.Sized := by
  induction h with
  | refl => exact hb
  | insert key _ ih => exact ih.insert key
  | reread _ hread ih =>
    -- What is read back is the filter that was written.
    rw [ih.eq_of_reread hread]
    exact ih

/-- Neither an insertion nor reading back takes a bit away. -/
theorem Becomes.mayContain (h : Becomes b later) (hb : b.Sized) (hkey : b.mayContain key) :
    later.mayContain key := by
  induction h with
  | refl => exact hkey
  | @insert mid other h ih =>
    have hinsert : ([other].foldl Bloom.insert mid).mayContain key :=
      mayContain_foldl_insert (h.sized hb).size_pos (.inl ih)
    exact hinsert
  | reread h hread ih =>
    rw [(h.sized hb).eq_of_reread hread]
    exact ih

/-- A series that was inserted is let through, at once and after any further insertions, writing and
reading back, all of which succeed; others are let through only if all their bits are set. Every
position is inside the words, also when it is computed in 64 bits. And filters into which the same
series were inserted are equal, in whatever order that was and however often. -/
theorem inserted_never_denied {b : Bloom} (h : b.Sized) (keys : List SeriesKey) :
    (∀ key ∈ keys, ∀ later, Becomes (keys.foldl insert b) later → later.mayContain key) ∧
    (∀ key, (keys.foldl insert b).mayContain key ↔ ∀ n ∈ positions b.size b.hashes.toNat key,
      hasBit b.words n ∨ ∃ other ∈ keys, n ∈ positions b.size b.hashes.toNat other) ∧
    (∀ later, Becomes b later → ∀ rest, read (later.write ++ rest) = .ok (later, rest)) ∧
    (∀ later, Becomes b later → ∀ key, ∀ n ∈ positions later.size later.hashes.toNat key,
      n / 64 < later.words.length) ∧
    (∀ key seed,
      (PathHash.hash (UInt64.ofNat seed) (Utf8.encode key.path) % UInt64.ofNat b.size).toNat =
        position b.size key seed) ∧
    ∀ others : List SeriesKey, (∀ key, key ∈ others ↔ key ∈ keys) →
      others.foldl insert b = keys.foldl insert b := by
  refine ⟨?inserted, fun key => mayContain_foldl_insert_iff h.size_pos, ?reread, ?inside,
    h.toNat_hash_mod, fun others hsame => foldl_insert_congr h.size_pos hsame⟩
  case inserted =>
    intro key hkey later hlater
    apply hlater.mayContain ((becomes_foldl_insert keys (.refl b)).sized h)
    exact mayContain_foldl_insert h.size_pos (.inr hkey)
  case reread =>
    intro later hlater rest
    exact (hlater.sized h).reads rest
  case inside =>
    intro later hlater key n hn
    have hlt : n < later.words.length * 64 := lt_of_mem_positions (hlater.sized h).size_pos hn
    exact (Nat.div_lt_iff_lt_mul (by decide)).2 hlt

end

/-- A filter of two words and five hashes that was read: of three series, two of them of one path,
one is let through after the filter was written and read once more and a fourth was inserted. -/
theorem inserted_never_denied_sample :
    let bytes : Bytes := [2, 0, 0, 0, 5, 0, 0, 0] ++ [1, 0, 0, 0, 0, 0, 0, 0x80] ++ List.replicate 8 0
    let keys : List SeriesKey := [⟨"a", "b.c"⟩, ⟨"a.b", "c"⟩, ⟨"", ""⟩]
    ∃ b, read bytes = .ok (b, []) ∧
      (keys.reverse ++ keys).foldl insert b = keys.foldl insert b ∧
      ∃ again, read ((keys.foldl insert b).write ++ [7]) = .ok (again, [7]) ∧
        (again.insert ⟨"d", "s"⟩).mayContain ⟨"a", "b.c"⟩ := by
  intro bytes keys
  have hread : read bytes = .ok (⟨[0x8000000000000001, 0], 5⟩, []) := by decide
  obtain ⟨hkept, -, hreread, -, -, hsame⟩ := inserted_never_denied (sized_of_read hread) keys
  have hagain := hreread _ (becomes_foldl_insert keys (.refl _)) [7]
  refine ⟨_, hread, hsame _ fun key => ?_, _, hagain, ?_⟩
  · rw [List.mem_append, List.mem_reverse, or_self]
  · exact hkept _ (.head _) _ (((Becomes.refl _).reread hagain).insert _)

end Bloom

end SeriesFile
