import SeriesFile.Proofs.PageEnds
import SeriesFile.Proofs.Safety

/-!
# Pages and the number of their points

A page does not say how many points it holds. Read for another number it is corrupt, with one
exception: pages of changed bits are filled up with zeros, and a zero is how another point in the
steady rhythm with the same value would be written. So such a page is also read for a few points
more, and for a few less if their bits end in the same byte. What then comes out are the first
points, or the points continued (`Page.recountTimes`, `Column.recount`), and it comes out exactly if
those would take as many bytes, in both sections (`Page.decode_recount`).

The two halves of the argument for changed bits are one: of what is written for the number that is
asked for and what is in the page, one continues the other, with bits of its own or with zeros
(`Bits.Continues`).
-/

namespace SeriesFile

variable {α β : Type}

/-! ### Continued lists -/

/-- The first `count` of a list; where there are fewer, each further one follows from the two before
it, which at the start are `before` and `last`. -/
def continued (next : α → α → α) (before last : α) : (count : Nat) → List α → List α
  | 0, _ => []
  | count + 1, [] => next before last :: continued next last (next before last) count []
  | count + 1, a :: as => a :: continued next last a count as

/-- The first `count` of a list, continued if there are fewer. The first of all counts for two. -/
def recount (next : α → α → α) (first : α) : (count : Nat) → List α → List α
  | 0, _ => []
  | count + 1, [] => first :: continued next first first count []
  | count + 1, a :: as => a :: continued next a a count as

section

variable (next : α → α → α)

/-- Continued lists have as many elements as were asked for. -/
theorem length_continued (before last : α) (count : Nat) (as : List α) :
    (continued next before last count as).length = count := by
  fun_induction continued next before last count as with
  | case1 => rfl
  | case2 before last count ih => rw [List.length_cons, ih]
  | case3 before last count a as ih => rw [List.length_cons, ih]

/-- There are as many as were asked for. -/
@[simp]
theorem length_recount (first : α) (count : Nat) (as : List α) :
    (recount next first count as).length = count := by
  cases count with
  | zero => rfl
  | succ count => cases as <;> simp [recount, length_continued]

/-- Nothing is continued where there are enough. -/
theorem continued_of_le {before last : α} {count : Nat} {as : List α} (h : count ≤ as.length) :
    continued next before last count as = as.take count := by
  fun_induction continued next before last count as with
  | case1 => rfl
  | case2 before last count ih => contradiction
  | case3 before last count a as ih => rw [ih (Nat.le_of_succ_le_succ h), List.take_succ_cons]

/-- As many as there are, or fewer, are those in front. -/
theorem recount_of_le {first : α} {count : Nat} {as : List α} (h : count ≤ as.length) :
    recount next first count as = as.take count := by
  cases count with
  | zero => rfl
  | succ count =>
    cases as with
    | nil => contradiction
    | cons a as =>
      rw [recount, continued_of_le next (Nat.le_of_succ_le_succ h), List.take_succ_cons]

variable {next} {next' : β → β → β} {f : α → β}

/-- What commutes with the rule for the next one commutes with continuing. -/
theorem map_continued (h : ∀ a b, f (next a b) = next' (f a) (f b)) (before last : α) (count : Nat)
    (as : List α) : (continued next before last count as).map f =
      continued next' (f before) (f last) count (as.map f) := by
  fun_induction continued next before last count as with
  | case1 => rfl
  | case2 before last count ih => rw [List.map_cons, ih, h, List.map_nil, continued]
  | case3 before last count a as ih => rw [List.map_cons, ih, List.map_cons, continued]

/-- What commutes with the rule for the next one commutes with counting anew. With this the values
of a column are treated as their patterns. -/
theorem map_recount (h : ∀ a b, f (next a b) = next' (f a) (f b)) (first : α) (count : Nat)
    (as : List α) :
    (recount next first count as).map f = recount next' (f first) count (as.map f) := by
  cases count with
  | zero => rfl
  | succ count => cases as <;> simp [recount, map_continued h]

end

/-- The first values of a column, and if there are fewer, then the last one again. -/
def Column.recount (count : Nat) : Column → Column
  | boolean vs => boolean (SeriesFile.recount (fun _ last => last) false count vs)
  | int32 vs => int32 (SeriesFile.recount (fun _ last => last) 0 count vs)
  | int64 vs => int64 (SeriesFile.recount (fun _ last => last) 0 count vs)
  | float vs => float (SeriesFile.recount (fun _ last => last) 0 count vs)
  | double vs => double (SeriesFile.recount (fun _ last => last) 0 count vs)
  | text vs => text (SeriesFile.recount (fun _ last => last) "" count vs)

/-- The type of a column does not depend on how many values there are. -/
@[simp]
theorem Column.dataType_recount (count : Nat) (c : Column) :
    (c.recount count).dataType = c.dataType := by
  cases c <;> rfl

/-- A column that is counted anew has that many values. -/
@[simp]
theorem Column.length_recount (count : Nat) (c : Column) : (c.recount count).length = count := by
  cases c <;> exact SeriesFile.length_recount _ _ _ _

/-- The first timestamps, and if there are fewer, then further ones in the rhythm of the last
two. -/
def Page.recountTimes (count : Nat) (times : List Int64) : List Int64 :=
  recount (fun before last => last + (last - before)) 0 count times

/-! ### Bits that continue others -/

namespace Bits

/-- A reader of the bits in front gets to the end of its bytes if it leaves less than a byte. -/
theorem onBytes_iff {read : Reader α} {a b : α} {bytes : Bytes} {bits left : List Bool}
    (hr : Reader.Reads read bits a) (hbits : unpack bytes = bits ++ left) :
    read.onBytes bytes = .ok (b, []) ↔
      b = a ∧ bytes.length ≤ bytes.length - left.length / 8 := by
  rw [Reader.onBytes, hbits, hr left]
  simp only [Except.ok.injEq, Prod.mk.injEq, List.drop_eq_nil_iff, @eq_comm _ a b]

/-- A reader fails where there are fewer bytes than it has bits to read. -/
theorem onBytes_error {read : Reader α} {a : α} {bytes : Bytes} {bits : List Bool}
    (hr : Reader.Reads read bits a) (hl : SeriesFile.Reader.Local read)
    (hfront : unpack bytes <+: bits) (hshort : 8 * bytes.length < bits.length) :
    ∃ fault, read.onBytes bytes = .error fault := by
  have hne : unpack bytes ≠ bits := by
    intro heq
    rw [← heq, length_unpack] at hshort
    exact Nat.lt_irrefl _ hshort
  obtain ⟨fault, hfault⟩ := hl.error_of_front hr hfront hne
  exact ⟨fault, by rw [Reader.onBytes, hfault]⟩

/-- One of two sequences of bits continues the other: the first with `lost` bits or more, whatever
they are, or the second with `gained` zeros or more. -/
def Continues (lost gained : Nat) (bits bits' : List Bool) : Prop :=
  (gained = 0 ∧ ∃ tail, bits = bits' ++ tail ∧ lost ≤ tail.length) ∨
    (lost = 0 ∧ ∃ zeros, bits' = bits ++ List.replicate zeros false ∧ gained ≤ zeros)

namespace Continues

variable {lost gained : Nat} {bits bits' : List Bool}

/-- The same bits in front of both change nothing. -/
theorem append (front : List Bool) (h : Continues lost gained bits bits') :
    Continues lost gained (front ++ bits) (front ++ bits') := by
  rcases h with ⟨hgained, tail, rfl, hlost⟩ | ⟨hlost, zeros, rfl, hgained⟩
  · exact .inl ⟨hgained, tail, List.append_assoc _ _ _ |>.symm, hlost⟩
  · exact .inr ⟨hlost, zeros, List.append_assoc _ _ _ |>.symm, hgained⟩

/-- Every sequence continues the empty one. -/
theorem of_nothing (h : lost ≤ bits.length) : Continues lost 0 bits [] :=
  .inl ⟨rfl, bits, rfl, h⟩

/-- Zeros in front of what goes on with zeros. This is the step of the induction once the points of
the page are used up. -/
theorem zeros {gained' : Nat} (count : Nat) (h : Continues 0 gained [] bits')
    (hle : gained' ≤ count + gained) :
    Continues 0 gained' [] (List.replicate count false ++ bits') := by
  rcases h with ⟨rfl, tail, htail, -⟩ | ⟨-, zeros, rfl, hgained⟩
  · obtain ⟨rfl, -⟩ := List.append_eq_nil_iff.1 htail.symm
    exact .inr ⟨rfl, count, by rw [List.append_nil, List.nil_append], hle⟩
  · refine .inr ⟨rfl, count + zeros, ?_, by omega⟩
    rw [List.nil_append, List.nil_append, List.replicate_append_replicate]

/-- Bits that end in the same byte differ by less than a byte. -/
theorem lt_of_length_pack (h : Continues lost gained bits bits')
    (heq : (pack bits').length = (pack bits).length) : lost < 8 ∧ gained < 8 := by
  rw [length_pack, length_pack] at heq
  -- Either way the number of bytes is that of the longer sequence, and the shorter is less than
  -- eight bits short of it.
  rcases h with ⟨rfl, tail, rfl, hlost⟩ | ⟨rfl, zeros, rfl, hgained⟩
  · rw [List.length_append] at heq
    omega
  · rw [List.length_append, List.length_replicate] at heq
    omega

/-- A reader of some bits, given others of which one continues the other, gets to the end of its
bytes exactly if both take the same number. -/
theorem onBytes_pack_iff {read : Reader α} {a b : α} (h : Continues lost gained bits bits')
    (hr : Reader.Reads read bits' a) (hl : SeriesFile.Reader.Local read) :
    read.onBytes (pack bits) = .ok (b, []) ↔
      b = a ∧ (pack bits').length = (pack bits).length := by
  have hbytes : 8 * (pack bits).length = bits.length + padding bits.length := by
    rw [← length_unpack, unpack_pack, List.length_append, List.length_replicate]
  have hpadding : padding bits.length < 8 := Nat.mod_lt _ (by decide)
  rcases h with ⟨-, tail, htail, -⟩ | ⟨-, zeros, rfl, -⟩
  · -- More bits are there than are read: the rest is what follows, and the bits that fill the last
    -- byte.
    have hbits : unpack (pack bits) =
        bits' ++ (tail ++ List.replicate (padding bits.length) false) := by
      rw [unpack_pack, ← List.append_assoc, ← htail]
    rw [onBytes_iff hr hbits]
    have hlength := congrArg List.length htail
    rw [List.length_append] at hlength
    rw [List.length_append, List.length_replicate, length_pack bits']
    exact and_congr_right fun _ => by omega
  · rw [length_pack (bits ++ _), List.length_append, List.length_replicate]
    by_cases hzeros : zeros ≤ padding bits.length
    · -- The zeros that are read are among those that fill the last byte.
      have hbits : unpack (pack bits) = bits ++ List.replicate zeros false ++
          List.replicate (padding bits.length - zeros) false := by
        rw [unpack_pack, List.append_assoc, List.replicate_append_replicate,
          Nat.add_sub_cancel' hzeros]
      rw [onBytes_iff hr hbits, List.length_replicate]
      exact and_congr_right fun _ => by omega
    · -- The bytes end before the zeros do.
      have hfront : unpack (pack bits) <+: bits ++ List.replicate zeros false := by
        rw [unpack_pack, List.prefix_append_right_inj, List.prefix_replicate_iff,
          List.length_replicate]
        exact ⟨Nat.le_of_not_le hzeros, rfl⟩
      have hshort : 8 * (pack bits).length < (bits ++ List.replicate zeros false).length := by
        rw [List.length_append, List.length_replicate]
        omega
      obtain ⟨fault, hfault⟩ := onBytes_error hr hl hfront hshort
      rw [hfault]
      simp only [reduceCtorEq, false_iff]
      omega

end Continues

end Bits

namespace Page

open Bits (Continues)
open Reader (Reads)

/-! ### Timestamps as changed bits -/

namespace TimeBits

/-- A change that is none takes one bit, and none takes less. -/
theorem length_encodeChange_pos (change : Int64) : 1 ≤ (encodeChange change).length := by
  unfold encodeChange
  dsimp only
  repeat' split
  all_goals simp

/-- Every further timestamp takes one bit at least. -/
theorem length_le_encodeFollowing (previous distance : Int64) (times : List Int64) :
    times.length ≤ (encodeFollowing previous distance times).length := by
  induction times generalizing previous distance with
  | nil => exact Nat.zero_le _
  | cons t times ih =>
    have hfirst := length_encodeChange_pos (t - previous - distance)
    have hrest := ih t (t - previous)
    rw [encodeFollowing, List.length_append, List.length_cons]
    omega

/-- Timestamps that go on in the rhythm of those before them are written as zeros. -/
theorem continues_following (before last : Int64) (count : Nat) (times : List Int64) :
    Continues (times.length - count) (count - times.length)
      (encodeFollowing last (last - before) times)
      (encodeFollowing last (last - before)
        (continued (fun before last => last + (last - before)) before last count times)) := by
  fun_induction continued (fun before last => last + (last - before)) before last count times with
  | case1 before last times =>
    -- None of these timestamps is asked for: their bits are those that are lost.
    rw [Nat.zero_sub]
    exact .of_nothing (length_le_encodeFollowing last (last - before) times)
  | case2 before last count ih =>
    -- The next one in the rhythm is no change of the distance, so it is the bit zero, and the
    -- rhythm stays.
    have hdistance : last + (last - before) - last = last - before := by
      rw [Int64.add_comm, Int64.add_sub_cancel]
    rw [List.length_nil, Nat.zero_sub] at ih ⊢
    simp only [encodeFollowing, hdistance, Int64.sub_self] at ih ⊢
    exact ih.zeros 1 (Nat.le_of_eq (Nat.add_comm count 1))
  | case3 before last count t times ih =>
    rw [List.length_cons, Nat.add_sub_add_right, Nat.succ_sub_succ]
    exact ih.append _

/-- The bits of timestamps and those of another number of them continue one another. -/
theorem continues_recount (count : Nat) (times : List Int64) :
    Continues (times.length - count) (count - times.length) (encodeBits times)
      (encodeBits (recountTimes count times)) := by
  cases count with
  | zero =>
    rw [Nat.zero_sub]
    apply Continues.of_nothing
    cases times with
    | nil => exact Nat.zero_le _
    | cons t times =>
      have hrest := length_le_encodeFollowing t 0 times
      rw [encodeBits, List.length_append, Bits.length_ofNat, List.length_cons]
      omega
  | succ count =>
    cases times with
    | nil =>
      have hrest := continues_following 0 0 count []
      rw [List.length_nil, Nat.zero_sub] at hrest ⊢
      -- The timestamp 0 in front is 64 zeros.
      exact hrest.zeros 64 (by omega)
    | cons t times =>
      have hrest := continues_following t t count times
      rw [Int64.sub_self] at hrest
      rw [List.length_cons, Nat.add_sub_add_right, Nat.add_sub_add_right]
      exact hrest.append _

/-- The section of some timestamps is read to its end for another number of them if that many take
as many bytes, and then these are read. -/
theorem decode_eq_ok {count : Nat} {times times' : List Int64} :
    decode count (encode times) = .ok (times', []) ↔ times' = recountTimes count times ∧
      (encode (recountTimes count times)).length = (encode times).length := by
  have hreads := reads_bits (recountTimes count times)
  rw [recountTimes, length_recount] at hreads
  exact (continues_recount count times).onBytes_pack_iff hreads (careful_bits count).isLocal

end TimeBits

/-! ### Numbers as changed bits -/

namespace ValueBits

/-- A difference, none included, takes one bit at least. -/
theorem length_le_encodeFollowing (window : Option Window) (previous : UInt64) (ps : List UInt64) :
    ps.length ≤ (encodeFollowing window previous ps).length := by
  induction ps generalizing window previous with
  | nil => exact Nat.zero_le _
  | cons p ps ih =>
    have own := ih (some (Window.around (p ^^^ previous).toNat)) p
    have same := ih window p
    simp only [encodeFollowing]
    split
    · simp only [List.length_cons]
      omega
    · split
      · split
        all_goals
          simp only [List.length_append, List.length_cons]
          omega
      · simp only [List.length_append, List.length_cons]
        omega

/-- What the encoding of further patterns depends on is the window and the pattern before. -/
theorem encodeFollowing_cons (window : Option Window) (previous p : UInt64) :
    ∃ bits window', ∀ ps, encodeFollowing window previous (p :: ps) =
      bits ++ encodeFollowing window' p ps := by
  simp only [encodeFollowing]
  split
  · -- The same pattern again keeps the window.
    exact ⟨[false], window, fun ps => rfl⟩
  · split
    · split
      · exact ⟨_, _, fun ps => rfl⟩
      · exact ⟨_, _, fun ps => rfl⟩
    · exact ⟨_, _, fun ps => rfl⟩

/-- A pattern that is the one before again is written as a zero. -/
theorem continues_following (window : Option Window) (before last : UInt64) (count : Nat)
    (ps : List UInt64) :
    Continues (ps.length - count) (count - ps.length) (encodeFollowing window last ps)
      (encodeFollowing window last (continued (fun _ last => last) before last count ps)) := by
  fun_induction continued (fun _ last : UInt64 => last) before last count ps generalizing window with
  | case1 before last ps =>
    rw [Nat.zero_sub]
    exact .of_nothing (length_le_encodeFollowing window last ps)
  | case2 before last count ih =>
    have ih := ih window
    rw [List.length_nil, Nat.zero_sub] at ih ⊢
    simp only [encodeFollowing, UInt64.xor_self, UInt64.toNat_zero, if_true] at ih ⊢
    exact ih.zeros 1 (Nat.le_of_eq (Nat.add_comm count 1))
  | case3 before last count p ps ih =>
    obtain ⟨bits, window', hcons⟩ := encodeFollowing_cons window last p
    rw [List.length_cons, Nat.add_sub_add_right, Nat.succ_sub_succ, hcons, hcons]
    exact (ih window').append bits

/-- The bits of patterns and those of another number of them continue one another. -/
theorem continues_recount (count : Nat) (ps : List UInt64) :
    Continues (ps.length - count) (count - ps.length) (encodeBits ps)
      (encodeBits (recount (fun _ last => last) 0 count ps)) := by
  cases count with
  | zero =>
    rw [Nat.zero_sub]
    apply Continues.of_nothing
    cases ps with
    | nil => exact Nat.zero_le _
    | cons p ps =>
      have hrest := length_le_encodeFollowing none p ps
      rw [encodeBits, List.length_append, Bits.length_ofNat, List.length_cons]
      omega
  | succ count =>
    cases ps with
    | nil =>
      have hrest := continues_following none 0 0 count []
      rw [List.length_nil, Nat.zero_sub] at hrest ⊢
      exact hrest.zeros 64 (by omega)
    | cons p ps =>
      rw [List.length_cons, Nat.add_sub_add_right, Nat.add_sub_add_right]
      exact (continues_following none p p count ps).append _

/-- To count the values of a column anew is to count their patterns anew. The value 0, with which an
empty column goes on, has the pattern 0, with which no patterns go on. -/
theorem patterns_recount {column : Column} (h : Encoding.gorilla.supports column.dataType)
    (count : Nat) : patterns (column.recount count) =
      recount (fun _ last => last) 0 count (patterns column) := by
  cases column with
  | boolean vs | text vs => contradiction
  | int32 vs => exact map_recount (fun _ _ => rfl) 0 count vs
  | int64 vs => exact map_recount (fun _ _ => rfl) 0 count vs
  | float vs => exact map_recount (fun _ _ => rfl) 0 count vs
  | double vs => rfl

/-- The section of some values is read to its end for another number of them if that many take as
many bytes, and then these are read. -/
theorem decode_eq_ok {count : Nat} {column column' : Column}
    (h : Encoding.gorilla.supports column.dataType) :
    decode column.dataType count (encode column) = .ok (column', []) ↔
      column' = column.recount count ∧
        (encode (column.recount count)).length = (encode column).length := by
  have hsupports : Encoding.gorilla.supports (column.recount count).dataType := by
    rwa [Column.dataType_recount]
  have hreads := reads_patterns (patterns (column.recount count))
  rw [length_patterns hsupports, Column.length_recount] at hreads
  have hcontinues := continues_recount count (patterns column)
  rw [← patterns_recount h] at hcontinues
  have hof := ofPatterns_patterns hsupports
  rw [Column.dataType_recount] at hof
  have hbits (ps : List UInt64) := hcontinues.onBytes_pack_iff (b := ps) hreads
    (careful_patterns count).isLocal
  rw [decode, Reader.bind_ok]
  constructor
  · -- From patterns that were read to the end, the column is made; they are those of the column
    -- that is counted anew.
    rintro ⟨ps, left, hread, hcolumn⟩
    cases hmade : ofPatterns column.dataType ps with
    | error fault =>
      rw [hmade] at hcolumn
      contradiction
    | ok made =>
      rw [hmade] at hcolumn
      cases hcolumn
      obtain ⟨rfl, hlength⟩ := (hbits ps).1 hread
      rw [hof] at hmade
      exact ⟨(Except.ok.inj hmade).symm, hlength⟩
  · rintro ⟨rfl, hlength⟩
    refine ⟨_, [], (hbits _).2 ⟨rfl, hlength⟩, ?_⟩
    rw [hof]
    rfl

end ValueBits

/-! ### Whole bytes -/

/-- Where timestamps are written in whole bytes, every further one adds to them. -/
theorem encodeTimes_append {encoding : Encoding} (h : encoding ≠ .gorilla)
    (times : List Int64) {more : List Int64} (hmore : more ≠ []) :
    ∃ tail, tail ≠ [] ∧
      encodeTimes encoding (times ++ more) = encodeTimes encoding times ++ tail := by
  obtain ⟨t, more, rfl⟩ := List.exists_cons_of_ne_nil hmore
  cases encoding with
  | gorilla => contradiction
  | plain =>
    refine ⟨Plain.encodeTimes (t :: more), ?_, List.flatMap_append⟩
    exact List.append_ne_nil_of_left_ne_nil (List.ne_nil_of_length_pos (by simp)) _
  | ts2diff =>
    -- Differences go on after the last timestamp, wherever they began.
    have differences (previous : Int64) (times : List Int64) : ∃ tail, tail ≠ [] ∧
        Difference.differences64 previous (times ++ t :: more) =
          Difference.differences64 previous times ++ tail := by
      induction times generalizing previous with
      | nil =>
        refine ⟨_, ?_, rfl⟩
        exact List.append_ne_nil_of_left_ne_nil (Varint.ended_encode _).ne_nil _
      | cons t' times ih =>
        obtain ⟨tail, htail, heq⟩ := ih t'
        refine ⟨tail, htail, ?_⟩
        rw [List.cons_append, Difference.differences64, heq, Difference.differences64,
          List.append_assoc]
    cases times with
    | nil =>
      refine ⟨Difference.encode64 (t :: more), ?_, rfl⟩
      exact List.append_ne_nil_of_left_ne_nil (List.ne_nil_of_length_pos (by simp)) _
    | cons t' times =>
      obtain ⟨tail, htail, heq⟩ := differences t' times
      refine ⟨tail, htail, ?_⟩
      show Bytes.i64 t' ++ Difference.differences64 t' (times ++ t :: more) = _
      rw [heq, ← List.append_assoc]
      rfl

/-- Timestamps in whole bytes are read to their end by their own number only. -/
theorem count_eq_of_decodeTimes {encoding : Encoding} (h : encoding ≠ .gorilla) {count : Nat}
    {times times' : List Int64}
    (hd : decodeTimes encoding count (encodeTimes encoding times) = .ok (times', [])) :
    count = times.length := by
  rcases Nat.lt_trichotomy count times.length with hlt | heq | hgt
  · -- The timestamps after the first `count` are left.
    have hmore : times.drop count ≠ [] := by simp [hlt]
    obtain ⟨tail, htail, happend⟩ := encodeTimes_append h (times.take count) hmore
    have hread := reads_times encoding (times.take count) tail
    rw [List.take_append_drop] at happend
    rw [List.length_take, Nat.min_eq_left (Nat.le_of_lt hlt), ← happend, hd] at hread
    cases hread
    contradiction
  · exact heq
  · -- Of more timestamps the section is a proper front.
    have hmore : List.replicate (count - times.length) (0 : Int64) ≠ [] := by
      rw [ne_eq, List.replicate_eq_nil_iff]
      omega
    obtain ⟨tail, htail, happend⟩ := encodeTimes_append h times hmore
    have hread := reads_times encoding (times ++ List.replicate (count - times.length) 0)
    rw [List.length_append, List.length_replicate, Nat.add_sub_cancel' (Nat.le_of_lt hgt),
      happend] at hread
    obtain ⟨fault, hfault⟩ := hread.error_of_front (careful_times encoding count).isLocal
      (List.prefix_append _ _) fun heq => htail (List.self_eq_append_right.1 heq)
    rw [hd] at hfault
    contradiction

/-! ### Whole pages -/

variable {encoding : Encoding} {type : DataType} {count : Nat} {times : List Int64}
  {column : Column} {page : Bytes}

/-- A page of changed bits that another number of points would fill as well. -/
def Fills (encoding : Encoding) (count : Nat) (times : List Int64) (column : Column) : Prop :=
  encoding = .gorilla ∧
    (encodeTimes encoding (recountTimes count times)).length =
      (encodeTimes encoding times).length ∧
    (encodeValues encoding (column.recount count)).length = (encodeValues encoding column).length

instance : Decidable (Fills encoding count times column) :=
  inferInstanceAs (Decidable (_ ∧ _ ∧ _))

/-- Eight points more or less take another byte. -/
theorem Fills.near (h : Fills encoding count times column) :
    count < times.length + 8 ∧ times.length < count + 8 := by
  obtain ⟨rfl, htimes, -⟩ := h
  have := (TimeBits.continues_recount count times).lt_of_length_pack htimes
  omega

/-- A page is taken apart in the same way for every number of points. -/
theorem decode_page_eq_ok (h : encode encoding times column = .ok page)
    (fits : Addressable (join times column)) {times' : List Int64} {column' : Column} :
    decode column.dataType encoding count page = .ok (times', column') ↔
      decodeTimes encoding count (encodeTimes encoding times) = .ok (times', []) ∧
        decodeValues encoding column.dataType count (encodeValues encoding column) =
          .ok (column', []) := by
  obtain ⟨hsupports, hlength, rfl⟩ := encode_ok h
  have htimes := fits.length_encodeTimes_lt hlength encoding
  rw [decode_eq hsupports, List.append_assoc, Reads.varint]
  dsimp only
  rw [UInt64.toNat_ofNat_of_lt' htimes, if_neg (by rw [List.length_append]; omega),
    List.take_left, List.drop_left, decodeSections_eq_ok]

/-- What is read of a page for another number of points, if anything is. -/
theorem decode_page_iff (h : encode encoding times column = .ok page)
    (fits : Addressable (join times column)) (hcount : count ≠ times.length)
    {times' : List Int64} {column' : Column} :
    decode column.dataType encoding count page = .ok (times', column') ↔
      Fills encoding count times column ∧ times' = recountTimes count times ∧
        column' = column.recount count := by
  obtain ⟨hsupports, -, -⟩ := encode_ok h
  rw [decode_page_eq_ok h fits]
  -- In whole bytes the timestamps alone exclude every other number.
  by_cases hgorilla : encoding = .gorilla
  · subst hgorilla
    have htimes : decodeTimes .gorilla count (encodeTimes .gorilla times) = .ok (times', []) ↔ _ :=
      TimeBits.decode_eq_ok
    have hvalues : decodeValues .gorilla column.dataType count (encodeValues .gorilla column) =
      .ok (column', []) ↔ _ := ValueBits.decode_eq_ok hsupports
    rw [htimes, hvalues, Fills]
    constructor
    · rintro ⟨⟨rfl, hsize⟩, rfl, hsize'⟩
      exact ⟨⟨rfl, hsize, hsize'⟩, rfl, rfl⟩
    · rintro ⟨⟨-, hsize, hsize'⟩, rfl, rfl⟩
      exact ⟨⟨rfl, hsize⟩, rfl, hsize'⟩
  · constructor
    · rintro ⟨htimes, -⟩
      exact absurd (count_eq_of_decodeTimes hgorilla htimes) hcount
    · rintro ⟨⟨hgorilla', -⟩, -⟩
      exact absurd hgorilla' hgorilla

/-- A page that is read for another number of points than it was made of is corrupt, unless it is
one of changed bits that those points would fill as well: then they are what is read. The number is
one of timestamps that memory can hold. A machine reserves their room before it looks at the page,
and up to there it makes no misstep either, if memory can hold as many texts where texts are
read. -/
theorem decode_recount (h : encoding.supports type) (times : List Int64) (column : Column)
    (htype : column.dataType = type) (hlength : times.length = column.length) :
    ∃ page, encode encoding times column = .ok page ∧
      (Addressable (join times column) → ∀ count, count ≠ times.length → count * 8 < 2 ^ 63 →
        (¬Fills encoding count times column →
          ∃ cause, decode type encoding count page = .error (.corrupted cause)) ∧
        (Fills encoding count times column →
          decode type encoding count page =
            .ok (recountTimes count times, column.recount count) ∧
          count < times.length + 8 ∧ times.length < count + 8) ∧
        (Guarded.Fits encoding page.length → (type = .text → count * 24 < 2 ^ 63) →
          Guarded.decode type encoding count page =
            (decode type encoding count page).mapError Guarded.Halt.fault)) := by
  subst htype
  obtain ⟨page, hpage⟩ := encode_supported h hlength
  refine ⟨page, hpage, fun fits count hcount hroom => ⟨fun hnot => ?_, fun hfills => ?_, ?_⟩⟩
  · rcases hd : decode column.dataType encoding count page with fault | ⟨times', column'⟩
    · obtain ⟨cause, rfl⟩ := decode_error h hd
      exact ⟨cause, rfl⟩
    · exact absurd ((decode_page_iff hpage fits hcount).1 hd).1 hnot
  · exact ⟨(decode_page_iff hpage fits hcount).2 ⟨hfills, rfl, rfl⟩, hfills.near⟩
  · exact fun hfits htexts => (Guarded.decode_ends hroom htexts hfits).guarded_eq

/-- A steady run of two points reads as one of three as well, but not as one of ten. Of three points
the last is lost when two are read, although its value is another one than that before. -/
theorem decode_recount_sample :
    (∃ page, encode .gorilla [5, 5] (.int32 [7, 7]) = .ok page ∧
      decode .int32 .gorilla 3 page = .ok ([5, 5, 5], .int32 [7, 7, 7]) ∧
      ∃ cause, decode .int32 .gorilla 10 page = .error (.corrupted cause)) ∧
    (∃ page, encode .gorilla [0, 1, 2] (.int64 [0, 4831838208, 0]) = .ok page ∧
      decode .int64 .gorilla 2 page = .ok ([0, 1], .int64 [0, 4831838208])) ∧
    ∃ page, encode .ts2diff [0, 1] (.int32 [3, 3]) = .ok page ∧
      ∃ cause, decode .int32 .ts2diff 3 page = .error (.corrupted cause) ∧
        Guarded.decode .int32 .ts2diff 3 page = .error (.fault (.corrupted cause)) := by
  have hsteady : Encoding.gorilla.supports .int32 := rfl
  have hvalues : Encoding.gorilla.supports .int64 := rfl
  have hbytes : Encoding.ts2diff.supports .int32 := rfl
  refine ⟨?_, ?_, ?_⟩
  · obtain ⟨page, hpage, hcounts⟩ := decode_recount hsteady [5, 5] (.int32 [7, 7]) rfl rfl
    have fits : Addressable (join [5, 5] (.int32 [7, 7])) :=
      ⟨by decide, by simp [join, Column.values]⟩
    exact ⟨page, hpage, ((hcounts fits 3 (by decide) (by decide)).2.1 (by decide +kernel)).1,
      (hcounts fits 10 (by decide) (by decide)).1 (by decide +kernel)⟩
  · obtain ⟨page, hpage, hcounts⟩ :=
      decode_recount hvalues [0, 1, 2] (.int64 [0, 4831838208, 0]) rfl rfl
    have fits : Addressable (join [0, 1, 2] (.int64 [0, 4831838208, 0])) :=
      ⟨by decide, by simp [join, Column.values]⟩
    exact ⟨page, hpage, ((hcounts fits 2 (by decide) (by decide)).2.1 (by decide +kernel)).1⟩
  · obtain ⟨page, hpage, hcounts⟩ := decode_recount hbytes [0, 1] (.int32 [3, 3]) rfl rfl
    have fits : Addressable (join [0, 1] (.int32 [3, 3])) :=
      ⟨by decide, by simp [join, Column.values]⟩
    obtain ⟨hnot, -, hguarded⟩ := hcounts fits 3 (by decide) (by decide)
    obtain ⟨cause, hcause⟩ := hnot (by decide +kernel)
    obtain rfl : page = [9, 0, 0, 0, 0, 0, 0, 0, 0, 2, 3, 0, 0, 0, 0] :=
      Except.ok.inj (hpage.symm.trans rfl)
    refine ⟨_, hpage, cause, hcause, ?_⟩
    have hfits : Guarded.Fits .ts2diff 15 := ⟨by decide, by decide⟩
    rw [hguarded hfits (by decide), hcause]
    rfl

/-- The page of two points gives two points and also three. -/
theorem decode_two_counts :
    ∃ page, encode .gorilla [5, 5] (.int32 [7, 7]) = .ok page ∧
      decode .int32 .gorilla 2 page = .ok ([5, 5], .int32 [7, 7]) ∧
      decode .int32 .gorilla 3 page = .ok ([5, 5, 5], .int32 [7, 7, 7]) :=
  ⟨[9, 0, 0, 0, 0, 0, 0, 0, 5, 0, 0, 0, 0, 0, 0, 0, 0, 7, 0], rfl, rfl, rfl⟩

end Page

end SeriesFile
