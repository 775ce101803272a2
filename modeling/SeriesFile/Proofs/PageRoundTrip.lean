import SeriesFile.Proofs.Pages

/-!
# Every page is read back

An encoding that supports a type makes a page of any timestamps and any values of that type, in any
order and also of none, and the page gives them back (`Page.roundTrip`).

A page states the length of its time section and of its texts as 64-bit numbers. No machine holds
so much that they would not fit (`Page.Addressable`): ten bytes are enough for a timestamp, whatever
the encoding, so what a time section takes is told by the number of its timestamps alone.
-/

namespace SeriesFile.Page

/-! ### The length of time sections -/

namespace Difference

/-- A difference is a varint, of ten bytes at most. -/
theorem length_differences64_le (previous : Int64) (vs : List Int64) :
    (differences64 previous vs).length ≤ 10 * vs.length := by
  induction vs generalizing previous with
  | nil => exact Nat.zero_le _
  | cons v vs ih =>
    have hfirst := Varint.length_encode_le (Varint.zigzag (v - previous))
    have hrest := ih v
    rw [differences64, List.length_append, List.length_cons, Varint.encodeSigned]
    omega

/-- With the first timestamp in front, which takes eight. -/
theorem length_encode64_le (vs : List Int64) : (encode64 vs).length ≤ 10 * vs.length := by
  cases vs with
  | nil => exact Nat.zero_le _
  | cons v vs =>
    have hrest := length_differences64_le v vs
    rw [encode64, List.length_append, Bytes.length_i64, List.length_cons]
    omega

end Difference

namespace TimeBits

/-- No form of a change is longer than the last one. -/
theorem length_encodeChange_le (change : Int64) : (encodeChange change).length ≤ 68 := by
  unfold encodeChange
  dsimp only
  split
  · decide
  iterate 3
    split
    · rw [List.length_append, Bits.length_ofNat]
      decide
  · rw [List.length_append, Bits.length_ofNat]
    decide

/-- So it is for the changes of several timestamps. -/
theorem length_encodeFollowing_le (previous distance : Int64) (times : List Int64) :
    (encodeFollowing previous distance times).length ≤ 68 * times.length := by
  induction times generalizing previous distance with
  | nil => exact Nat.zero_le _
  | cons t times ih =>
    have hfirst := length_encodeChange_le (t - previous - distance)
    have hrest := ih t (t - previous)
    rw [encodeFollowing, List.length_append, List.length_cons]
    omega

/-- The first timestamp takes no more than a change. -/
theorem length_encodeBits_le (times : List Int64) :
    (encodeBits times).length ≤ 68 * times.length := by
  cases times with
  | nil => exact Nat.zero_le _
  | cons t times =>
    have hrest := length_encodeFollowing_le t 0 times
    rw [encodeBits, List.length_append, Bits.length_ofNat, List.length_cons]
    omega

/-- 68 bits fit ten bytes, also those that are filled up. -/
theorem length_encode_le (times : List Int64) : (encode times).length ≤ 10 * times.length := by
  have hbits := length_encodeBits_le times
  rw [encode, Bits.length_pack]
  omega

end TimeBits

/-- Ten bytes are enough for a timestamp. -/
theorem length_encodeTimes_le (encoding : Encoding) (times : List Int64) :
    (encodeTimes encoding times).length ≤ 10 * times.length := by
  cases encoding with
  | plain =>
    rw [encodeTimes, Plain.encodeTimes, Bytes.length_flatMap_of_width Bytes.length_i64]
    omega
  | ts2diff => exact Difference.length_encode64_le times
  | gorilla => exact TimeBits.length_encode_le times

/-! ### Points and their columns -/

/-- Values of its own type are added to a column one after another. -/
theorem pushAll_ok {type : DataType} {points : List Point}
    (h : ∀ p ∈ points, p.value.dataType = type) {column : Column} (htype : column.dataType = type) :
    ∃ column', points.foldlM (fun column point =>
        match column.push? point.value with
        | some column => Except.ok column
        | none => Except.error (Fault.typeMismatch type point.value.dataType)) column =
          .ok column' ∧
      column'.dataType = type ∧ column'.values = column.values ++ points.map Point.value := by
  induction points generalizing column with
  | nil => exact ⟨column, rfl, htype, (List.append_nil _).symm⟩
  | cons p points ih =>
    -- The first value is of the type of the column, and so the column keeps it.
    obtain ⟨pushed, hpush, hvalues, htype', -⟩ :=
      Column.push?_ok ((h p (.head _)).trans htype.symm)
    obtain ⟨column', hcolumn', htype'', hvalues'⟩ :=
      ih (fun q hq => h q (.tail _ hq)) (htype'.trans htype)
    refine ⟨column', ?_, htype'', ?_⟩
    · rw [List.foldlM_cons, hpush]
      exact hcolumn'
    · rw [hvalues', hvalues, List.append_assoc]
      rfl

/-- Points of one type make a column of their values. -/
theorem columnOf_ok {type : DataType} {points : List Point}
    (h : ∀ p ∈ points, p.value.dataType = type) :
    ∃ column, columnOf type points = .ok column ∧ column.dataType = type ∧
      column.values = points.map Point.value := by
  obtain ⟨column, hcolumn, htype, hvalues⟩ := pushAll_ok h (Column.dataType_empty type)
  exact ⟨column, hcolumn, htype, by rw [hvalues, Column.values_empty, List.nil_append]⟩

/-! ### Round trips -/

/-- Points that a machine with 64-bit addresses can hold: neither a list of timestamps nor a text
takes more than half of the addresses. -/
structure Addressable (points : List Point) : Prop where
  times : 8 * points.length < 2 ^ 63
  texts : ∀ p ∈ points, ∀ s, p.value = .text s → s.utf8ByteSize < 2 ^ 63

namespace Addressable

variable {times : List Int64} {column : Column} (h : Addressable (join times column))
include h

/-- Eight bytes become ten at most, and half of the addresses leave room for that. -/
theorem length_encodeTimes_lt (hlength : times.length = column.length) (encoding : Encoding) :
    (encodeTimes encoding times).length < 2 ^ 64 := by
  have hcount := h.times
  have hsize := length_encodeTimes_le encoding times
  rw [length_join hlength] at hcount
  omega

/-- The length of a text that can be held fits its field. -/
theorem textsFit (hlength : times.length = column.length) : TextsFit column := by
  intro s hs
  rw [← values_join hlength] at hs
  obtain ⟨p, hp, hvalue⟩ := List.mem_map.1 hs
  exact Nat.lt_trans (h.texts p hp s hvalue) (by decide)

/-- What a machine can hold is read back from its page. -/
theorem decode {encoding : Encoding} {page : Bytes}
    (hpage : encode encoding times column = .ok page) :
    Page.decode column.dataType encoding times.length page = .ok (times, column) := by
  obtain ⟨-, hlength, -⟩ := encode_ok hpage
  exact decode_of_fits hpage (h.length_encodeTimes_lt hlength encoding) (h.textsFit hlength)

end Addressable

/-- Nothing but the type and unequal lengths prevents a page. -/
theorem encode_supported {encoding : Encoding} {times : List Int64} {column : Column}
    (h : encoding.supports column.dataType) (hlength : times.length = column.length) :
    ∃ page, encode encoding times column = .ok page := by
  rw [encode, h, if_neg (by decide), if_neg (not_not_intro hlength)]
  exact ⟨_, rfl⟩

/-- Whatever is written in an encoding that supports its type makes a page and is read back from
it: timestamps with a column, and points. -/
theorem roundTrip {encoding : Encoding} {type : DataType} (h : encoding.supports type) :
    (∀ (times : List Int64) (column : Column), column.dataType = type →
      times.length = column.length →
      ∃ page, encode encoding times column = .ok page ∧
        (Addressable (join times column) →
          decode type encoding times.length page = .ok (times, column))) ∧
    ∀ points : List Point, (∀ p ∈ points, p.value.dataType = type) →
      ∃ page, encodePoints type encoding points = .ok page ∧
        (Addressable points → decodePoints type encoding points.length page = .ok points) := by
  refine ⟨?_, fun points hpoints => ?_⟩
  · rintro times column rfl hlength
    obtain ⟨page, hpage⟩ := encode_supported h hlength
    exact ⟨page, hpage, fun hfits => hfits.decode hpage⟩
  · obtain ⟨column, hcolumn, rfl, hvalues⟩ := columnOf_ok hpoints
    -- Points of one type are their times beside a column, so the first part answers for them.
    have hlength : (points.map Point.time).length = column.length := by
      rw [List.length_map, ← Column.length_values, hvalues, List.length_map]
    obtain ⟨page, hpage⟩ := encode_supported h hlength
    refine ⟨page, ?_, fun hfits => ?_⟩
    · rw [encodePoints, h, hcolumn]
      exact hpage
    · have hread := Addressable.decode ((join_parts hvalues).symm ▸ hfits) hpage
      rw [List.length_map] at hread
      rw [decodePoints, hread, ok_bind]
      exact congrArg Except.ok (join_parts hvalues)

/-- Times out of order and at both ends of the range, with a NaN that has a payload, a negative
zero and an infinity; texts with a terminating zero and of several bytes; and nothing at all. -/
theorem roundTrip_sample :
    (∃ page, encode .gorilla [9223372036854775807, -9223372036854775808, 0, 0]
        (.double [0x7FF8000000000001, 0x8000000000000000, 0x7FF0000000000000, 0]) = .ok page ∧
      decode .double .gorilla 4 page = .ok ([9223372036854775807, -9223372036854775808, 0, 0],
        .double [0x7FF8000000000001, 0x8000000000000000, 0x7FF0000000000000, 0])) ∧
    (∃ page, encodePoints .text .plain [⟨3, .text "a\x00"⟩, ⟨-3, .text "日"⟩] = .ok page ∧
      decodePoints .text .plain 2 page = .ok [⟨3, .text "a\x00"⟩, ⟨-3, .text "日"⟩]) ∧
    ∃ page, encodePoints .int32 .ts2diff [] = .ok page ∧
      decodePoints .int32 .ts2diff 0 page = .ok [] := by
  have hdouble : Encoding.gorilla.supports .double := rfl
  have htext : Encoding.plain.supports .text := rfl
  have hint : Encoding.ts2diff.supports .int32 := rfl
  refine ⟨?_, ?_, ?_⟩
  · obtain ⟨page, hpage, hread⟩ := (roundTrip hdouble).1
      [9223372036854775807, -9223372036854775808, 0, 0]
      (.double [0x7FF8000000000001, 0x8000000000000000, 0x7FF0000000000000, 0]) rfl rfl
    exact ⟨page, hpage, hread ⟨by decide, by simp [join, Column.values]⟩⟩
  · obtain ⟨page, hpage, hread⟩ := (roundTrip htext).2
      [⟨3, .text "a\x00"⟩, ⟨-3, .text "日"⟩] (by decide)
    refine ⟨page, hpage, hread ⟨by decide, ?_⟩⟩
    simp only [List.mem_cons, List.not_mem_nil, or_false, forall_eq_or_imp, forall_eq]
    refine ⟨?_, ?_⟩
    all_goals
      rintro s ⟨⟩
      decide
  · obtain ⟨page, hpage, hread⟩ := (roundTrip hint).2 [] (by simp)
    exact ⟨page, hpage, hread ⟨by decide, by simp⟩⟩

end SeriesFile.Page
