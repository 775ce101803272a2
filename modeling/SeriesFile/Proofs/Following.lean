import Mathlib.Data.Nat.Bitwise
import SeriesFile.Page.Guarded
import SeriesFile.Proofs.PageEnds

/-!
# Guarded steps and plain ones

A guarded reader follows a plain one (`Follows`) if both end in the same way from every state that a
condition allows: with results that fit and states that correspond, or with the same fault. A
misstep is neither, so none is made. The relation composes as the readers do (`Follows.bind`), and
what a step leaves behind is what the next one may ask for: so many bytes, or a place inside some
bits.

The arithmetic of varints is followed here, and with it plain values and differences.
-/

namespace SeriesFile

namespace Guarded

/-! ### Following -/

section

variable {S T α β γ δ : Type}

/-- From a state that satisfies `pre` a guarded reader does what a plain one does from the state as
that one sees it. The results fit, and the state that is left satisfies `post`. -/
def Follows (view : S → T) (pre : S → Prop) (guarded : StateT S (Except Halt) α)
    (plain : StateT T (Except Fault) β) (fits : α → β → Prop) (post : S → Prop) : Prop :=
  ∀ ⦃s : S⦄, pre s →
    (∃ a b s', guarded s = .ok (a, s') ∧ plain (view s) = .ok (b, view s') ∧ fits a b ∧ post s') ∨
    ∃ fault, guarded s = .error (.fault fault) ∧ plain (view s) = .error fault

namespace Follows

variable {view : S → T} {pre pre' mid post post' : S → Prop} {fits : α → β → Prop}
  {fits₂ : γ → δ → Prop} {guarded guarded' : StateT S (Except Halt) α}
  {plain plain' : StateT T (Except Fault) β} {next : α → StateT S (Except Halt) γ}
  {next' : β → StateT T (Except Fault) δ}

/-- Nothing is read, so the condition that held is left. -/
theorem pure {a : α} {b : β} (h : fits a b) :
    Follows view pre (Pure.pure a) (Pure.pure b) fits pre :=
  fun s hs => .inl ⟨a, b, s, rfl, rfl, h, hs⟩

/-- What the first step leaves is what the second may ask for: `mid` is the only thing that joins
them. -/
theorem bind (h : Follows view pre guarded plain fits mid)
    (h' : ∀ a b, fits a b → Follows view mid (next a) (next' b) fits₂ post) :
    Follows view pre (guarded >>= next) (plain >>= next') fits₂ post := by
  intro s hs
  -- Sequencing of readers is sequencing of results, with the state handed on.
  show (∃ c d s', (guarded s >>= fun taken => next taken.1 taken.2) = .ok (c, s') ∧
      (plain (view s) >>= fun taken => next' taken.1 taken.2) = .ok (d, view s') ∧ fits₂ c d ∧
      post s') ∨
    ∃ fault, (guarded s >>= fun taken => next taken.1 taken.2) = .error (.fault fault) ∧
      (plain (view s) >>= fun taken => next' taken.1 taken.2) = .error fault
  rcases h hs with ⟨a, b, s', hg, hp, hfits, hs'⟩ | ⟨fault, hg, hp⟩
  · rw [hg, hp]
    exact h' a b hfits hs'
  · rw [hg, hp]
    exact .inr ⟨fault, rfl, rfl⟩

/-- A function of what is read takes fitting results to fitting results and leaves the state
alone. -/
theorem map {f : α → γ} {f' : β → δ} (h : Follows view pre guarded plain fits post)
    (hf : ∀ a b, fits a b → fits₂ (f a) (f' b)) :
    Follows view pre (do return f (← guarded)) (do return f' (← plain)) fits₂ post :=
  h.bind fun a b hab => .pure (hf a b hab)

/-- A stricter condition may be asked before, and less be promised behind. -/
theorem weaken (h : Follows view pre guarded plain fits post) (hpre : ∀ s, pre' s → pre s)
    (hpost : ∀ s, post s → post' s) : Follows view pre' guarded plain fits post' := by
  intro s hs
  rcases h (hpre s hs) with ⟨a, b, s', hg, hp, hfits, hs'⟩ | hfault
  · exact .inl ⟨a, b, s', hg, hp, hfits, hpost s' hs'⟩
  · exact .inr hfault

/-- Both readers branch on the same thing, and each branch may use what it decided. -/
theorem ite {p : Prop} [Decidable p] (h : p → Follows view pre guarded plain fits post)
    (h' : ¬p → Follows view pre guarded' plain' fits post) :
    Follows view pre (if p then guarded else guarded') (if p then plain else plain') fits post := by
  split
  · exact h ‹_›
  · exact h' ‹_›

/-- A step that succeeds takes nothing from what is read. -/
theorem step {step : Except Halt α} {a : α} {next : α → StateT S (Except Halt) γ}
    {plain : StateT T (Except Fault) δ} (hs : step = .ok a)
    (h : Follows view pre (next a) plain fits₂ post) :
    Follows view pre (liftM step >>= next) plain fits₂ post := by
  subst hs
  exact h

/-- The same at the end, where only the result of the step is left. -/
theorem last {step : Except Halt α} {a : α} {b : β} (hs : step = .ok a) (h : fits a b) :
    Follows view pre (liftM step) (Pure.pure b) fits pre := by
  subst hs
  exact pure h

end Follows

/-- The same things, and so many of them. -/
def Counted (count : Nat) (as bs : List α) : Prop :=
  as = bs ∧ as.length = count

/-- Nothing is read in no steps. -/
theorem Counted.nil : Counted 0 ([] : List α) [] :=
  ⟨rfl, rfl⟩

/-- With one more thing in front of so many there is one more. -/
theorem Counted.cons {count : Nat} {as bs : List α} (h : Counted count as bs) (a : α) :
    Counted (count + 1) (a :: as) (a :: bs) :=
  ⟨congrArg (a :: ·) h.1, congrArg (· + 1) h.2⟩

end

/-! ### Arithmetic -/

/-- A step that made no misstep hands its result over. -/
theorem ok_bind {α β : Type} (a : α) (next : α → Except Halt β) :
    (Except.ok a >>= next) = next a :=
  rfl

theorem add_of_lt {width a b : Nat} (h : a + b < 2 ^ width) : add width a b = .ok (a + b) :=
  if_pos h

theorem mul_of_lt {width a b : Nat} (h : a * b < 2 ^ width) : mul width a b = .ok (a * b) :=
  if_pos h

theorem sub_of_le {a b : Nat} (h : b ≤ a) : sub a b = .ok (a - b) :=
  if_pos h

theorem shiftLeft_of_lt {word : UInt64} {places : Nat} (h : places < 64) :
    shiftLeft word places = .ok (word <<< UInt64.ofNat places) :=
  if_pos h

/-- Room that fits in memory can be had. -/
theorem reserve_of_lt {count size : Nat} (h : count * size < 2 ^ 63) :
    reserve count size = .ok () :=
  if_pos h

/-- What is shifted to the left of a number is added to it, less what is shifted out. -/
theorem toNat_or_shiftLeft (low word : UInt64) {places : Nat} (h : places < 64)
    (hlow : low.toNat < 2 ^ places) :
    (low ||| word <<< UInt64.ofNat places).toNat =
      low.toNat + word.toNat * 2 ^ places % 2 ^ 64 := by
  have hwidth : 2 ^ 64 = 2 ^ (64 - places) * 2 ^ places := by
    rw [← Nat.pow_add, Nat.sub_add_cancel (Nat.le_of_lt h)]
  rw [UInt64.toNat_or, UInt64.toNat_shiftLeft,
    UInt64.toNat_ofNat_of_lt' (Nat.lt_trans h (by decide)), Nat.mod_eq_of_lt h, Nat.shiftLeft_eq,
    hwidth, Nat.mul_mod_mul_right, Nat.or_comm, ← Nat.shiftLeft_eq,
    ← Nat.shiftLeft_add_eq_or_of_lt hlow, Nat.add_comm]

/-! ### Bytes -/

/-- Of `most` bytes at least `least` are left. -/
structure Left (most least : Nat) (bytes : Bytes) : Prop where
  least_le : least ≤ bytes.length
  le_most : bytes.length ≤ most

variable {α : Type} {most : Nat}

/-- A guarded reader with results that fit those of a plain one, which needs `need` bytes and leaves
`left` of them. -/
abbrev FollowsBytes {β : Type} (most need : Nat) (guarded : Reader α) (plain : SeriesFile.Reader β)
    (fits : α → β → Prop) (left : Nat) : Prop :=
  Follows id (Left most need) guarded plain fits (Left most left)

namespace FollowsBytes

/-- Where so many bytes are left, taking them is no misstep. -/
theorem take (n left : Nat) :
    FollowsBytes most (n + left) (Reader.take n) (SeriesFile.Reader.take n) Eq left := by
  intro bytes h
  have hle : n ≤ bytes.length := Nat.le_of_add_right_le h.least_le
  refine .inl ⟨bytes.take n, _, bytes.drop n, if_pos hle, ?_, rfl, ?_⟩
  · show SeriesFile.Reader.take n bytes = _
    rw [SeriesFile.Reader.take, Bytes.split?_eq, if_pos hle]
    rfl
  · -- What remains is `n` bytes fewer than there were.
    obtain ⟨hleast, hmost⟩ := h
    constructor <;> rw [List.length_drop] <;> omega

/-- Where a byte is left, one can be taken. -/
theorem byte (left : Nat) :
    FollowsBytes most (1 + left) Reader.byte SeriesFile.Reader.byte Eq left := by
  intro bytes h
  obtain ⟨hleast, hmost⟩ := h
  cases bytes with
  | nil =>
    -- There are no bytes, though one was promised.
    rw [List.length_nil] at hleast
    omega
  | cons b bytes =>
    rw [List.length_cons] at hleast hmost
    exact .inl ⟨b, b, bytes, rfl, rfl, rfl, by omega, by omega⟩

theorem u32 (left : Nat) : FollowsBytes most (4 + left) Reader.u32 SeriesFile.Reader.u32 Eq left :=
  ((take 4 left).map fun _ _ => congrArg Bytes.ofLittleEndian).map fun _ _ => congrArg UInt32.ofNat

theorem u64 (left : Nat) : FollowsBytes most (8 + left) Reader.u64 SeriesFile.Reader.u64 Eq left :=
  ((take 8 left).map fun _ _ => congrArg Bytes.ofLittleEndian).map fun _ _ => congrArg UInt64.ofNat

theorem i32 (left : Nat) : FollowsBytes most (4 + left) Reader.i32 SeriesFile.Reader.i32 Eq left :=
  (u32 left).map fun _ _ => congrArg UInt32.toInt32

theorem i64 (left : Nat) : FollowsBytes most (8 + left) Reader.i64 SeriesFile.Reader.i64 Eq left :=
  (u64 left).map fun _ _ => congrArg UInt64.toInt64

theorem fail {β : Type} (fault : Fault) (fits : α → β → Prop) :
    FollowsBytes most 0 (Reader.fail fault) (SeriesFile.Reader.fail fault) fits 0 :=
  fun _ _ => .inr ⟨fault, rfl, rfl⟩

variable {guarded : Reader α} {plain : SeriesFile.Reader α} {width count size : Nat}

/-- Behind a check of the length so many bytes are left. -/
theorem require {β : Type} {plain : SeriesFile.Reader β} {fits : α → β → Prop} (part : PagePart)
    {need : Nat} (h : FollowsBytes most need guarded plain fits 0) :
    FollowsBytes most 0 (do Reader.require part need; guarded)
      (do SeriesFile.Reader.require part need; plain) fits 0 := by
  have hcheck : Follows id (Left most 0) (Reader.require part need)
      (SeriesFile.Reader.require part need) (fun _ _ => True) (Left most need) := by
    intro bytes hleft
    -- Both look at the length before they read, and give the same fault if it is too small.
    by_cases hshort : bytes.length < need
    · exact .inr ⟨_, if_pos hshort, if_pos hshort⟩
    · exact .inl ⟨(), (), bytes, if_neg hshort, if_neg hshort, trivial,
        Nat.le_of_not_lt hshort, hleft.le_most⟩
  exact hcheck.bind fun _ _ _ => h

/-- Things of fixed width, or of any width at all. -/
theorem replicate (h : ∀ n, FollowsBytes most (width + n * width) guarded plain Eq (n * width))
    (count : Nat) :
    FollowsBytes most (count * width) (Reader.replicate count guarded)
      (SeriesFile.Reader.replicate count plain) (Counted count) 0 := by
  induction count with
  | zero => exact (Follows.pure .nil).weaken (fun _ => id) fun bytes h => ⟨Nat.zero_le _, h.le_most⟩
  | succ count ih =>
    -- The condition in front is the sum of what all the steps take, so it is split off one at a
    -- time.
    rw [Nat.succ_mul, Nat.add_comm]
    apply (h count).bind
    rintro a _ rfl
    exact ih.map fun _ _ hcounted => hcounted.cons a

/-- Room is reserved once for all things, and then they are read one by one. -/
theorem collect (h : ∀ n, FollowsBytes most (width + n * width) guarded plain Eq (n * width))
    (hsize : count * size < 2 ^ 63) :
    FollowsBytes most (count * width) (Reader.collect count size guarded)
      (SeriesFile.Reader.replicate count plain) (Counted count) 0 :=
  .step (reserve_of_lt hsize) (replicate h count)

end FollowsBytes

/-! ### Varints -/

namespace Reader

/-- A group is a byte without its highest bit, which tells whether another one follows. -/
theorem group_eq (b : UInt8) :
    (b &&& 0x7F).toUInt64.toNat = b.toNat % 128 ∧ (b &&& 0x80 = 0 ↔ b < 128) := by
  have hb := b.toNat_lt
  constructor
  · rw [UInt8.toNat_toUInt64, UInt8.toNat_and]
    exact Nat.and_two_pow_sub_one_eq_mod b.toNat 7
  · have hbit : b.toNat &&& 128 = (b.toNat.testBit 7).toNat * 128 := Nat.and_two_pow b.toNat 7
    rw [← UInt8.toNat_inj, UInt8.toNat_and, UInt8.lt_iff_toNat_lt]
    show b.toNat &&& 128 = 0 ↔ b.toNat < 128
    rw [hbit, Nat.toNat_testBit]
    omega

/-- The groups are added up as they are read, the first at the right end of the word. Of the tenth,
which is the last, only one bit has a place in the word. -/
theorem varintFrom_eq (word : UInt64) (groups more : Nat) (hgroups : groups + more = 9)
    (hword : word.toNat < 2 ^ (7 * groups)) (bytes : Bytes) :
    varintFrom word (7 * groups) bytes =
      match Varint.sumGroups more bytes with
      | (.ok n, rest) => .ok (UInt64.ofNat (word.toNat + n * 2 ^ (7 * groups)), rest)
      | (.error cause, _) => .error (.fault (.corrupted cause)) := by
  -- By induction on the bytes: the word holds the groups that have been read, so it is below the
  -- place of the next one.
  induction bytes generalizing word groups more with
  | nil => cases more <;> rfl
  | cons b bytes ih =>
    obtain ⟨hgroup, hends⟩ := group_eq b
    have hor := toNat_or_shiftLeft word (b &&& 0x7F).toUInt64
      (show 7 * groups < 64 by omega) hword
    rw [hgroup] at hor
    have hadd : add 31 (7 * groups) 7 = .ok (7 * (groups + 1)) := add_of_lt (by omega)
    simp only [varintFrom, shiftLeft_of_lt (show 7 * groups < 64 by omega), ok_bind, hends,
      hadd]
    generalize word ||| (b &&& 0x7F).toUInt64 <<< UInt64.ofNat (7 * groups) = word' at hor ⊢
    by_cases hb : b < 128
    · have hsum : word' = UInt64.ofNat (word.toNat + b.toNat * 2 ^ (7 * groups)) := by
        have hb' : b.toNat < 128 := UInt8.lt_iff_toNat_lt.1 hb
        have hlt := word'.toNat_lt
        rw [Nat.mod_eq_of_lt hb'] at hor
        rw [← UInt64.toNat_inj, UInt64.toNat_ofNat']
        omega
      cases more
      all_goals
        simp only [Varint.sumGroups, hb, if_true, hsum]
        rfl
    · cases more with
      | zero =>
        -- An eleventh group would be shifted out of the word.
        obtain rfl : groups = 9 := by omega
        simp only [Varint.sumGroups, hb, if_false]
        rfl
      | succ more =>
        -- Nine groups are no more than 63 bits, so nothing of them is lost.
        have hplaces : 2 ^ (7 * (groups + 1)) = 128 * 2 ^ (7 * groups) := by
          rw [Nat.mul_succ, Nat.pow_add, Nat.mul_comm]
        have hgroup : b.toNat % 128 * 2 ^ (7 * groups) ≤ 127 * 2 ^ (7 * groups) :=
          Nat.mul_le_mul_right _ (by omega)
        have hroom : 2 ^ (7 * groups) ≤ 2 ^ (7 * 8) := Nat.pow_le_pow_right (by decide) (by omega)
        have hword' : word'.toNat = word.toNat + b.toNat % 128 * 2 ^ (7 * groups) := by
          rw [hor, Nat.mod_eq_of_lt (by omega)]
        have hrest := ih word' (groups + 1) more (by omega)
          (by rw [hword', hplaces]; omega)
        simp only [Varint.sumGroups, hb, if_false]
        rw [if_neg (by omega), hrest]
        rcases Varint.sumGroups more bytes with ⟨cause | n, rest⟩
        · rfl
        · have hsum : word'.toNat + n * 2 ^ (7 * (groups + 1)) =
              word.toNat + (b.toNat % 128 + 128 * n) * 2 ^ (7 * groups) := by
            rw [hword', hplaces, Nat.add_mul, Nat.mul_left_comm, Nat.mul_assoc, Nat.add_assoc]
          simp only [hsum]

/-- In a word a varint is the number that it is as bytes in memory. -/
theorem varint_eq (bytes : Bytes) : varint bytes =
    match Varint.decode bytes with
    | (.ok v, rest) => .ok (v, rest)
    | (.error fault, _) => .error (.fault fault) := by
  have h : varint bytes = _ := varintFrom_eq 0 0 (Varint.maxLength - 1) rfl (by decide) bytes
  rw [h, Varint.decode]
  rcases Varint.sumGroups (Varint.maxLength - 1) bytes with ⟨cause | n, rest⟩
  · rfl
  · show Except.ok (UInt64.ofNat (0 + n * 1), rest) = .ok (UInt64.ofNat n, rest)
    rw [Nat.zero_add, Nat.mul_one]

/-- Which varints are read with guarded steps is a matter of their bytes, as it is without. -/
theorem varint_eq_ok_iff {bytes rest : Bytes} {v : UInt64} :
    varint bytes = .ok (v, rest) ↔ Varint.decode bytes = (.ok v, rest) := by
  rw [varint_eq]
  rcases Varint.decode bytes with ⟨fault | v', left⟩
  · constructor <;> exact nofun
  · simp

end Reader

namespace FollowsBytes

/-- Reading a varint is safe with no bytes promised at all: it looks for each one, and the tenth
byte ends it either way. -/
theorem varint : FollowsBytes most 0 Reader.varint SeriesFile.Reader.varint Eq 0 := by
  intro bytes hleft
  have hword := Reader.varint_eq bytes
  rcases hv : Varint.decode bytes with ⟨fault | v, rest⟩
  · rw [hv] at hword
    exact .inr ⟨fault, hword, SeriesFile.Reader.ofResult_eq_error_iff.2 ⟨rest, hv⟩⟩
  · rw [hv] at hword
    obtain ⟨taken, hbytes, -⟩ := Varint.decode_eq_ok_iff.1 hv
    have hrest : rest.length ≤ bytes.length := by
      rw [hbytes, List.length_append]
      exact Nat.le_add_left _ _
    exact .inl ⟨v, v, rest, hword, SeriesFile.Reader.ofResult_eq_ok_iff.2 hv, rfl, Nat.zero_le _,
      Nat.le_trans hrest hleft.le_most⟩

/-- A number with a sign is folded into one without and read as that. -/
theorem signedVarint :
    FollowsBytes most 0 Reader.signedVarint SeriesFile.Reader.signedVarint Eq 0 := by
  rw [SeriesFile.Reader.signedVarint_eq]
  exact varint.map fun _ _ => congrArg Varint.unzigzag

end FollowsBytes

/-- The same column, of a type and with so many values. -/
def Filled (type : DataType) (count : Nat) (column column' : Column) : Prop :=
  column = column' ∧ column.length = count ∧ column.dataType = type

/-! ### Plain values -/

namespace Plain

open FollowsBytes

variable {count most : Nat}

/-- Timestamps in eight bytes each. Their room is asked for behind the check that so many bytes are
there. -/
theorem follows_times (hcount : count * 8 < 2 ^ 63) :
    FollowsBytes most 0 (decodeTimes count) (Page.Plain.decodeTimes count) (Counted count) 0 :=
  .step (mul_of_lt (by omega)) (require _ (collect (fun n => i64 (n * 8)) (by omega)))

/-- A truth value is one byte, of which two are understood. -/
theorem follows_boolean (left : Nat) :
    FollowsBytes most (1 + left) readBoolean Page.Plain.readBoolean Eq left := by
  apply (byte left).bind
  rintro b _ rfl
  by_cases hfalse : b = 0
  · subst hfalse
    exact .pure rfl
  by_cases htrue : b = 1
  · subst htrue
    exact .pure rfl
  -- Any other byte is a fault for both.
  rw [if_neg hfalse, if_neg htrue]
  split
  · contradiction
  · contradiction
  · exact fun _ _ => .inr ⟨_, rfl, rfl⟩

/-- The bytes of a text are those that were looked at before. -/
theorem follows_text : FollowsBytes most 0 readText Page.Plain.readText Eq 0 := by
  apply varint.bind
  rintro length _ rfl
  apply require
  intro bytes h
  -- The slice that is looked at and the one that is taken are the same bytes, by one check.
  have hslice : Reader.upTo length.toNat bytes = .ok (bytes.take length.toNat, bytes) :=
    if_pos h.least_le
  have htake : Reader.take length.toNat bytes =
      .ok (bytes.take length.toNat, bytes.drop length.toNat) :=
    if_pos h.least_le
  have htake' : SeriesFile.Reader.take length.toNat bytes =
      .ok (bytes.take length.toNat, bytes.drop length.toNat) := by
    rw [SeriesFile.Reader.take, Bytes.split?_eq, if_pos h.least_le]
  simp only [bind, StateT.bind, Except.bind, id, hslice, htake']
  cases Utf8.decode (bytes.take length.toNat) with
  | error fault => exact .inr ⟨_, rfl, rfl⟩
  | ok s =>
    refine .inl ⟨s, s, bytes.drop length.toNat, ?_, rfl, rfl, Nat.zero_le _, ?_⟩
    · show (Reader.take length.toNat bytes >>= fun taken => Except.ok (s, taken.2)) = _
      rw [htake]
      rfl
    · rw [List.length_drop]
      exact Nat.le_trans (Nat.sub_le _ _) h.le_most

/-- Values of every type, in whole bytes. A type of fixed width is checked against the length before
anything is read, and only the room for texts has no such check in front of it. -/
theorem follows_values (hcount : count * 8 < 2 ^ 63) (type : DataType)
    (htexts : type = .text → count * 24 < 2 ^ 63) :
    FollowsBytes most 0 (decodeValues type count) (Page.Plain.decodeValues type count)
      (Filled type count) 0 := by
  have column {α : Type} (f : List α → Column) (hlength : ∀ as, (f as).length = as.length)
      (htype : ∀ as, (f as).dataType = type) (as bs : List α) (h : Counted count as bs) :
      Filled type count (f as) (f bs) :=
    ⟨congrArg f h.1, (hlength as).trans h.2, htype as⟩
  -- All types of fixed width are read in one manner, by their own reader and width.
  have fixed {α : Type} {width : Nat} {guarded : Reader α} {plain : SeriesFile.Reader α}
      {f : List α → Column} (h : ∀ left, FollowsBytes most (width + left) guarded plain Eq left)
      (hwidth : width ≤ 8) (hf : ∀ as bs, Counted count as bs → Filled type count (f as) (f bs)) :
      FollowsBytes most 0
        (do
          Reader.require .plainValues (← mul 64 count width)
          return f (← Reader.collect count width guarded))
        (do
          SeriesFile.Reader.require .plainValues (count * width)
          return f (← SeriesFile.Reader.replicate count plain)) (Filled type count) 0 := by
    have hsize : count * width ≤ count * 8 := Nat.mul_le_mul_left count hwidth
    exact .step (mul_of_lt (by omega))
      (require _ ((collect (fun n => h (n * width)) (by omega)).map hf))
  cases type with
  | boolean => exact fixed follows_boolean (by decide) (column .boolean (fun _ => rfl) fun _ => rfl)
  | int32 => exact fixed i32 (by decide) (column .int32 (fun _ => rfl) fun _ => rfl)
  | int64 => exact fixed i64 (by decide) (column .int64 (fun _ => rfl) fun _ => rfl)
  | float => exact fixed u32 (by decide) (column .float (fun _ => rfl) fun _ => rfl)
  | double => exact fixed u64 (by decide) (column .double (fun _ => rfl) fun _ => rfl)
  | text =>
    -- A text may have no bytes, so nothing is asked of the length here.
    have hread : FollowsBytes most (count * 0) (Reader.collect count 24 readText)
        (SeriesFile.Reader.replicate count Page.Plain.readText) (Counted count) 0 :=
      collect (fun _ => follows_text) (htexts rfl)
    exact hread.map (column .text (fun _ => rfl) fun _ => rfl)

end Plain

/-! ### Differences -/

namespace Difference

open FollowsBytes

variable {count most : Nat}

/-- The sums wrap around, so there is nothing to go wrong but the varints. -/
theorem follows_following64 (previous : Int64) (count : Nat) :
    FollowsBytes most 0 (following64 previous count) (Page.Difference.following64 previous count)
      (Counted count) 0 := by
  induction count generalizing previous with
  | zero => exact .pure .nil
  | succ count ih =>
    apply signedVarint.bind
    rintro difference _ rfl
    exact (ih (previous + difference)).map fun _ _ h => h.cons _

/-- The first number stands for itself and the others follow by differences; room for all of them is
reserved behind the check for the first. -/
theorem follows64 (hcount : count * 8 < 2 ^ 63) :
    FollowsBytes most 0 (decode64 count) (Page.Difference.decode64 count) (Counted count) 0 := by
  cases count with
  | zero => exact .pure .nil
  | succ count =>
    apply require
    apply Follows.step (reserve_of_lt (by omega))
    apply (i64 0).bind
    rintro v _ rfl
    exact (follows_following64 v count).map fun _ _ h => h.cons v

/-- A sum of which 32 bits are enough has 64. -/
theorem sum?_narrow? (previous : Int32) (difference : Int64) :
    (sum? previous.toInt64 difference).bind narrow? =
      Page.Difference.step32 previous difference := by
  have hp := previous.toInt_lt
  have hp' := previous.le_toInt
  rw [sum?, Page.Difference.step32, Int32.toInt_toInt64]
  generalize previous.toInt + difference.toInt = sum
  by_cases hsum : -2 ^ 63 ≤ sum ∧ sum < 2 ^ 63
  · have hword : (Int64.ofInt sum).toInt = sum := Int64.toInt_ofInt_of_le hsum.1 hsum.2
    rw [if_pos hsum, Option.bind_some, narrow?, hword]
    split
    · rw [← Int32.ofInt_int64ToInt, hword]
    · rfl
  · rw [if_neg hsum, if_neg (by omega), Option.bind_none]

/-- A sum that leaves its 32 bits is looked at in 64, where it has room, and is then a fault of the
page. -/
theorem follows_following32 (previous : Int32) (count : Nat) :
    FollowsBytes most 0 (following32 previous count) (Page.Difference.following32 previous count)
      (Counted count) 0 := by
  induction count generalizing previous with
  | zero => exact .pure .nil
  | succ count ih =>
    apply signedVarint.bind
    rintro difference _ rfl
    rw [sum?_narrow?]
    -- The guarded sum decides as the plain one, so both fail or both go on.
    cases Page.Difference.step32 previous difference with
    | none => exact fail _ _
    | some v => exact (ih v).map fun _ _ h => h.cons v

/-- As for 64 bits, from a first number of four bytes. -/
theorem follows32 (hcount : count * 8 < 2 ^ 63) :
    FollowsBytes most 0 (decode32 count) (Page.Difference.decode32 count) (Counted count) 0 := by
  cases count with
  | zero => exact .pure .nil
  | succ count =>
    apply require
    apply Follows.step (reserve_of_lt (by omega))
    apply (i32 0).bind
    rintro v _ rfl
    exact (follows_following32 v count).map fun _ _ h => h.cons v

end Difference

end Guarded

end SeriesFile
