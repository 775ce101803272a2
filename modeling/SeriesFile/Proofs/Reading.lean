import SeriesFile.Document
import SeriesFile.Proofs.Varints

/-!
# What readers depend on

A reader of a file takes bytes from the front and decides by them alone: given more bytes behind,
it takes the same and leaves them too. This is `Reader.Local`, and it composes like the readers do.
Readers of bits are no different, so it is said of both.

Together with `Reader.Reads` it makes a part of a file recognisable from its front
(`Reads.eq_append`): if a reader succeeds on the front of what was written, then it has read all of
what was written, for otherwise the same reader would succeed twice in different ways.
-/

namespace SeriesFile

variable {α β : Type}

/-- A step that has succeeded hands its result over. Stated for `Except` alone, as `simp` does not
see it through the readers. -/
theorem ok_bind (a : α) (next : α → Except Fault β) : (Except.ok a >>= next) = next a :=
  rfl

/-- Of two steps that succeed together both do. -/
theorem bind_eq_ok {first : Except Fault α} {next : α → Except Fault β} {b : β} :
    (first >>= next) = .ok b ↔ ∃ a, first = .ok a ∧ next a = .ok b := by
  constructor
  · intro h
    rcases first with fault | a
    · contradiction
    · exact ⟨a, rfl, h⟩
  · rintro ⟨a, rfl, h⟩
    exact h

/-- Two steps fail together in the first or in the second. -/
theorem bind_eq_error {first : Except Fault α} {next : α → Except Fault β} {fault : Fault} :
    (first >>= next) = .error fault ↔
      first = .error fault ∨ ∃ a, first = .ok a ∧ next a = .error fault := by
  rcases first with fault' | a
  · show Except.error fault' = .error fault ↔ _
    simp
  · show next a = .error fault ↔ _
    simp

/-! ### The length of things written one after another -/

namespace Bytes

variable {write : α → Bytes} {as : List α}

theorem length_le_flatMap {a : α} (h : a ∈ as) :
    (write a).length ≤ (as.flatMap write).length :=
  (List.sublist_flatten_of_mem (List.mem_map_of_mem h)).length_le

/-- Things of at least so many bytes each take at least so many bytes together: what a count of
things that does not fit is refused by. -/
theorem mul_length_le_flatMap {least : Nat} (h : ∀ a ∈ as, least ≤ (write a).length) :
    least * as.length ≤ (as.flatMap write).length := by
  induction as with
  | nil => simp
  | cons a as ih =>
    -- The first thing takes its own bytes and the others take theirs.
    have hrest := ih fun b hb => h b (.tail _ hb)
    have hfirst := h a (.head _)
    rw [List.flatMap_cons, List.length_append, List.length_cons, Nat.mul_succ]
    omega

/-- Things of one width take as many bytes as there are things, times the width. -/
theorem length_flatMap_of_width {width : Nat} (h : ∀ a, (write a).length = width) (as : List α) :
    (as.flatMap write).length = as.length * width := by
  induction as with
  | nil => simp
  | cons a as ih =>
    rw [List.flatMap_cons, List.length_append, ih, h, List.length_cons, Nat.add_mul, Nat.one_mul,
      Nat.add_comm]

/-- The bytes of a text come after its length, so they are no more than all of it. -/
theorem length_text (s : String) : s.utf8ByteSize ≤ (text s).length := by
  rw [text, List.length_append, Utf8.length_encode]
  exact Nat.le_add_left _ _

end Bytes

/-! ### Readers that look no further -/

namespace Reader

section

-- What is read in sequence: bytes, or bits.
variable {ι : Type}

variable {read : StateT (List ι) (Except Fault) α} {next : α → StateT (List ι) (Except Fault) β}

/-- A reader of two parts succeeds if both do, one after the other. -/
theorem bind_ok {items rest : List ι} {b : β} :
    (read >>= next) items = .ok (b, rest) ↔
      ∃ a left, read items = .ok (a, left) ∧ next a left = .ok (b, rest) := by
  show (read items >>= fun taken => next taken.1 taken.2) = _ ↔ _
  simp only [bind_eq_ok, Prod.exists]

/-- More items behind those that a reader is given are left, and change nothing else. -/
def Local (read : StateT (List ι) (Except Fault) α) : Prop :=
  ∀ ⦃items rest : List ι⦄ ⦃a : α⦄ (more : List ι),
    read items = .ok (a, rest) → read (items ++ more) = .ok (a, rest ++ more)

namespace Local

theorem pure (a : α) : Local (Pure.pure a : StateT (List ι) (Except Fault) α) := by
  intro items rest a' more h
  cases h
  rfl

/-- A reader of two parts that look no further looks no further either: the second finds what the
first left, with the same bytes behind. -/
theorem bind (h : Local read) (h' : ∀ a, Local (next a)) : Local (read >>= next) := by
  intro items rest b more hb
  obtain ⟨a, left, hr, hn⟩ := bind_ok.1 hb
  -- The first part leaves `left`, and behind it what is behind the whole.
  exact bind_ok.2 ⟨a, left ++ more, h more hr, h' a more hn⟩

theorem map (h : Local read) (f : α → β) : Local (do return f (← read)) :=
  h.bind fun a => .pure (f a)

/-- Which of two readers is taken may depend on anything but the items. -/
theorem ite {p : Prop} [Decidable p] {read' : StateT (List ι) (Except Fault) α} (h : Local read)
    (h' : Local read') : Local (if p then read else read') := by
  split
  · exact h
  · exact h'

end Local

end

namespace Local

/-- A reader that never succeeds says nothing about what is behind. -/
theorem fail (fault : Fault) : Local (Reader.fail fault : Reader α) := by
  intro bytes rest a more h
  contradiction

/-- A piece of a fixed length ends where it ended, however many bytes follow. -/
theorem take (n : Nat) : Local (Reader.take n) := by
  intro bytes rest front more h
  by_cases hn : n ≤ bytes.length
  · -- The piece is there already, so it is cut from the same bytes.
    have hn' : n ≤ (bytes ++ more).length := by
      rw [List.length_append]
      exact Nat.le_add_right_of_le hn
    simp only [Reader.take, Bytes.split?_eq, hn, if_true, Except.ok.injEq, Prod.mk.injEq] at h
    simp only [Reader.take, Bytes.split?_eq, hn', if_true, List.take_append_of_le_length hn,
      List.drop_append_of_le_length hn, h.1, h.2]
  · simp [Reader.take, Bytes.split?_eq, hn] at h

theorem byte : Local Reader.byte := by
  intro bytes rest b more h
  cases bytes with
  | nil => contradiction
  | cons b' bytes =>
    cases h
    rfl

theorem littleEndian (width : Nat) : Local (Reader.littleEndian width) :=
  (take width).map Bytes.ofLittleEndian

theorem u32 : Local Reader.u32 :=
  (littleEndian 4).map UInt32.ofNat

theorem u64 : Local Reader.u64 :=
  (littleEndian 8).map UInt64.ofNat

theorem i32 : Local Reader.i32 :=
  u32.map UInt32.toInt32

theorem i64 : Local Reader.i64 :=
  u64.map UInt64.toInt64

/-- So many things of a kind, one behind the other: by induction on their number. -/
theorem replicate {read : Reader α} (h : Local read) (n : Nat) :
    Local (Reader.replicate n read) := by
  induction n with
  | zero => exact .pure []
  | succ n ih => exact h.bind fun a => ih.map (a :: ·)

/-- One byte decides what it stands for. -/
theorem tag (kind : TagKind) (ofTag? : UInt8 → Option α) : Local (Reader.tag kind ofTag?) := by
  apply byte.bind
  intro b
  split
  · exact .pure _
  · exact .fail _

/-- A varint shows by its own bytes where it ends (`Varint.Ended`). -/
theorem varint : Local Reader.varint := by
  intro bytes rest v more h
  obtain ⟨taken, rfl, hended, hlength, hv⟩ := varint_eq_ok_iff.1 h
  exact varint_eq_ok_iff.2 ⟨taken, List.append_assoc .., hended, hlength, hv⟩

/-- From a source of bytes a varint is read as from a slice, where it is read at all. -/
theorem sourceVarint : Local Reader.sourceVarint := by
  intro bytes rest v more h
  rw [sourceVarint_eq_ok_iff] at h ⊢
  exact varint more h

/-- A text is read behind its length, and whether its bytes spell one is not a matter of what
follows. -/
theorem text : Local Reader.text := by
  refine sourceVarint.bind fun length => (take length.toNat).bind fun bytes => ?_
  split
  · exact .pure _
  · exact .fail _

end Local

section

variable {ι : Type} {read : StateT (List ι) (Except Fault) α} {items front : List ι} {a : α}

/-- A reader that succeeds on the front of something it reads back, whatever follows, has read all
of it. -/
theorem Local.eq_append {rest left : List ι} {a' : α} (hl : Local read)
    (h : ∀ rest, read (items ++ rest) = .ok (a, rest)) (hf : front <+: items ++ rest)
    (hr : read front = .ok (a', left)) : a' = a ∧ front = items ++ left := by
  obtain ⟨more, hm⟩ := hf
  have whole := hl more hr
  rw [hm, h rest] at whole
  obtain ⟨ha, hb⟩ := Prod.mk.inj (Except.ok.inj whole)
  refine ⟨ha.symm, @List.append_cancel_right _ _ more _ ?_⟩
  rw [hm, hb, List.append_assoc]

/-- What breaks off before its end is not read. -/
theorem Local.error_of_front (hl : Local read)
    (h : ∀ rest, read (items ++ rest) = .ok (a, rest)) (hf : front <+: items)
    (hne : front ≠ items) : ∃ fault, read front = .error fault := by
  cases hr : read front with
  | error fault => exact ⟨fault, rfl⟩
  | ok taken =>
    obtain ⟨-, hfront⟩ := hl.eq_append h (hf.trans (List.prefix_append items [])) hr
    -- A front that is longer than the whole is all of it.
    refine absurd (hf.eq_of_length_le ?_) hne
    rw [hfront, List.length_append]
    exact Nat.le_add_right _ _

end

namespace Reads

variable {read : Reader α} {bytes front : Bytes} {a : α}

/-- What a writer wrote is recognised by its front: of a file whose front can be read, that front
holds all of what was written. -/
theorem eq_append {rest left : Bytes} {a' : α} (h : Reads read bytes a) (hl : Local read)
    (hf : front <+: bytes ++ rest) (hr : read front = .ok (a', left)) :
    a' = a ∧ front = bytes ++ left :=
  hl.eq_append h hf hr

theorem error_of_front (h : Reads read bytes a) (hl : Local read) (hf : front <+: bytes)
    (hne : front ≠ bytes) : ∃ fault, read front = .error fault :=
  hl.error_of_front h hf hne

end Reads

end Reader

end SeriesFile
