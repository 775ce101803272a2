import SeriesFile.Proofs.Parts

/-!
# Whole files and their fronts

An `Image` is what a complete file is made of: the things in its body and its footer. Two facts tie
its bytes to `Document.parse`. The whole file is read back (`Image.parse_file`), with the chunks in
the groups in which they stand (`Document.gather`). And no proper front of it can be read, wherever
it ends and whatever names and texts stand in it (`Image.parse_front`).

For the second the checksum is of no use, as texts may hold anything, a tail with a fitting checksum
included. What counts is that the body has to be used up by whole things. So what is taken for the
footer starts where a thing of the body ended (`BodyItem.aligned`): there is either the marker of
another such thing, which no footer starts with, or the true footer, of which some is missing.
-/

namespace SeriesFile

open Reader (Reads Local)

/-! ### Bodies -/

namespace BodyItem

/-- A thing in the body of a file as bytes. -/
def write : BodyItem → Bytes
  | group device => Frame.group device
  | chunk c => c.write

/-- Everything in a thing of the body fits its field. -/
def Sound : BodyItem → Prop
  | group device => device.utf8ByteSize < 2 ^ 64
  | chunk c => c.Sound

/-- What is written as a thing of a body is read as that thing. -/
theorem reads {item : BodyItem} (h : item.Sound) : Reads read item.write item := by
  cases item with
  | group device => exact (Reads.byte Frame.groupMarker).bind ((Reads.text h).map group)
  | chunk c => exact (Reads.byte Frame.chunkMarker).bind ((Chunk.reads h).map chunk)

/-- How a thing of a body is read does not depend on what comes behind it. -/
theorem local_read : Local read :=
  Local.byte.bind fun _ => Local.ite (Local.text.map group) <|
    Local.ite (Chunk.local_read.map chunk) (.fail _)

/-- Every thing in a body starts with one of the two markers. -/
theorem write_eq_cons (item : BodyItem) :
    ∃ marker bytes, item.write = marker :: bytes ∧ marker ≠ Frame.footerMarker := by
  cases item with
  | group device => exact ⟨Frame.groupMarker, _, rfl, by decide⟩
  | chunk c => exact ⟨Frame.chunkMarker, _, rfl, by decide⟩

/-- Nothing of a body is read where the footer starts. -/
theorem read_footerMarker {bytes rest : Bytes} {item : BodyItem} :
    read (Frame.footerMarker :: bytes) ≠ .ok (item, rest) :=
  nofun

/-- A body as bytes. -/
def writeAll (items : List BodyItem) : Bytes :=
  items.flatMap write

@[simp]
theorem writeAll_nil : writeAll [] = [] := rfl

@[simp]
theorem writeAll_cons (item : BodyItem) (items : List BodyItem) :
    writeAll (item :: items) = item.write ++ writeAll items :=
  List.flatMap_cons

@[simp]
theorem writeAll_append (items more : List BodyItem) :
    writeAll (items ++ more) = writeAll items ++ writeAll more :=
  List.flatMap_append

/-- A body is taken apart into the things it was written from. -/
theorem readMany_writeAll {items : List BodyItem} (hs : ∀ item ∈ items, item.Sound) {limit : Nat}
    (hl : (writeAll items).length ≤ limit) : readMany limit (writeAll items) = items := by
  induction items generalizing limit with
  | nil => cases limit <;> rfl
  | cons item items ih =>
    obtain ⟨marker, bytes, hw, -⟩ := item.write_eq_cons
    rw [writeAll_cons, List.length_append, hw, List.length_cons] at hl
    -- Every thing takes at least a byte, so as many steps as there are bytes suffice.
    obtain ⟨limit, rfl⟩ : ∃ n, limit = n + 1 := ⟨limit - 1, by omega⟩
    rw [writeAll_cons, readMany, reads (hs item (.head _))]
    exact congrArg (item :: ·) (ih (fun other ho => hs other (.tail _ ho)) (by omega))

/-- From a file that has a body and no more the whole body is recovered. -/
theorem ofUnfinished_writeAll {items : List BodyItem} (hs : ∀ item ∈ items, item.Sound) :
    ofUnfinished (Frame.head ++ writeAll items) = items := by
  rw [ofUnfinished, List.drop_left' (by rfl)]
  refine readMany_writeAll hs ?_
  rw [List.length_append]
  exact Nat.le_add_left _ _

/-- The chunk that a thing of a body is, if it is one. -/
def chunk? : BodyItem → Option Chunk
  | group _ => none
  | chunk c => some c

/-- The chunks of a file that was not finished. -/
def chunksOf (file : Bytes) : List Chunk :=
  (ofUnfinished file).filterMap chunk?

/-- The chunks in a body from a position on, each with its place and the device of its group. -/
def locate : (device : String) → (position : Nat) → List BodyItem → List (String × PlacedChunk)
  | _, _, [] => []
  | _, position, group device :: items =>
    locate device (position + (group device).write.length) items
  | device, position, chunk c :: items =>
    (device, ⟨position, c⟩) :: locate device (position + (chunk c).write.length) items

/-- A body in which every chunk stands in a group. -/
def StartsWithGroup : List BodyItem → Prop
  | chunk _ :: _ => False
  | _ => True

end BodyItem

/-- The chunks of a group, each with the device. -/
def Group.located (g : Group) : List (String × PlacedChunk) :=
  g.chunks.map fun placed => (g.device, placed)

namespace Document

/-- The chunks of a file, each with its place and the device of its group. -/
def located (d : Document) : List (String × PlacedChunk) :=
  d.groups.flatMap Group.located

/-- Without the devices these are the chunks of the file. -/
theorem map_located (d : Document) : d.located.map Prod.snd = d.chunks := by
  simp [located, chunks, List.map_flatMap, Group.located, Function.comp_def]

/-- A group that was just begun has no chunks. -/
theorem located_inOrder_group (device : String) (groups : List Group) :
    (inOrder (⟨device, []⟩ :: groups)).flatMap Group.located =
      (inOrder groups).flatMap Group.located := by
  simp [inOrder, Group.located]

/-- A chunk that is added to the last group comes last. -/
theorem located_inOrder_chunk (last : Group) (placed : PlacedChunk) (groups : List Group) :
    (inOrder ({ last with chunks := placed :: last.chunks } :: groups)).flatMap Group.located =
      (inOrder (last :: groups)).flatMap Group.located ++ [(last.device, placed)] := by
  simp [inOrder, Group.located]

/-- The groups of the things of a body from a position on, behind groups that are there already; the
last first. -/
def gather : (position : Nat) → List Group → List BodyItem → List Group
  | _, groups, [] => groups
  | position, groups, .group device :: items =>
    gather (position + (BodyItem.group device).write.length) (⟨device, []⟩ :: groups) items
  | position, last :: groups, .chunk c :: items =>
    gather (position + (BodyItem.chunk c).write.length)
      ({ last with chunks := ⟨position, c⟩ :: last.chunks } :: groups) items
  | position, [], .chunk c :: items =>
    -- A chunk before all groups is in none.
    gather (position + (BodyItem.chunk c).write.length) [] items

/-- The chunks that are gathered are those of the body, each in the group that was begun last. -/
theorem located_gather {items : List BodyItem} {position : Nat} {groups : List Group}
    (hg : groups = [] → BodyItem.StartsWithGroup items) :
    (inOrder (gather position groups items)).flatMap Group.located =
      (inOrder groups).flatMap Group.located ++
        BodyItem.locate ((groups.head?.map Group.device).getD "") position items := by
  induction items generalizing position groups with
  | nil => exact (List.append_nil _).symm
  | cons item items ih =>
    cases item with
    | group device =>
      have hrest := @ih (position + (BodyItem.group device).write.length) (⟨device, []⟩ :: groups)
        nofun
      rw [gather, hrest, located_inOrder_group]
      rfl
    | chunk c =>
      cases groups with
      | nil =>
        -- The body would begin with a chunk.
        exact (hg rfl).elim
      | cons last groups =>
        have hrest := @ih (position + (BodyItem.chunk c).write.length)
          ({ last with chunks := ⟨position, c⟩ :: last.chunks } :: groups) nofun
        rw [gather, hrest, located_inOrder_chunk, List.append_assoc]
        rfl

/-- A group marker begins a group. -/
theorem readGroups_group {size limit : Nat} {groups : List Group} {bytes rest : Bytes}
    {device : String} (hb : bytes ≠ []) (hr : BodyItem.read bytes = .ok (.group device, rest)) :
    readGroups size (limit + 1) groups bytes =
      readGroups size limit (⟨device, []⟩ :: groups) rest := by
  obtain ⟨b, bytes, rfl⟩ := List.exists_cons_of_ne_nil hb
  simp only [readGroups, hr, ok_bind]

/-- A chunk goes to the group that was begun last, at the place where it starts. -/
theorem readGroups_chunk {size limit : Nat} {last : Group} {groups : List Group}
    {bytes rest : Bytes} {c : Chunk} (hb : bytes ≠ [])
    (hr : BodyItem.read bytes = .ok (.chunk c, rest)) :
    readGroups size (limit + 1) (last :: groups) bytes =
      readGroups size limit
        ({ last with chunks := ⟨size - bytes.length, c⟩ :: last.chunks } :: groups) rest := by
  obtain ⟨b, bytes, rfl⟩ := List.exists_cons_of_ne_nil hb
  simp only [readGroups, hr, ok_bind]

/-- A body that is not used up goes on with a thing that can be read. -/
theorem readGroups_ok {size limit : Nat} {groups found : List Group} {bytes : Bytes}
    (hb : bytes ≠ []) (h : readGroups size (limit + 1) groups bytes = .ok found) :
    ∃ item rest groups', BodyItem.read bytes = .ok (item, rest) ∧
      readGroups size limit groups' rest = .ok found := by
  obtain ⟨b, bytes, rfl⟩ := List.exists_cons_of_ne_nil hb
  rw [readGroups, bind_eq_ok] at h
  · obtain ⟨⟨item, rest⟩, hr, h⟩ := h
    cases item with
    | group device => exact ⟨_, rest, _, hr, h⟩
    | chunk c =>
      cases groups with
      | nil => contradiction
      | cons last groups => exact ⟨_, rest, _, hr, h⟩
  · exact nofun

/-- A body is read back thing after thing. -/
theorem readGroups_writeAll {items : List BodyItem} (hs : ∀ item ∈ items, item.Sound)
    {size limit position : Nat} {groups : List Group}
    (hg : groups = [] → BodyItem.StartsWithGroup items)
    (hl : (BodyItem.writeAll items).length ≤ limit)
    (hp : position + (BodyItem.writeAll items).length = size) :
    readGroups size limit groups (BodyItem.writeAll items) =
      .ok (inOrder (gather position groups items)) := by
  induction items generalizing limit position groups with
  | nil => cases limit <;> rfl
  | cons item items ih =>
    have hread := BodyItem.reads (hs item (.head _)) (BodyItem.writeAll items)
    obtain ⟨marker, bytes, hw, -⟩ := item.write_eq_cons
    rw [BodyItem.writeAll_cons] at hl hp ⊢
    obtain ⟨limit, rfl⟩ : ∃ n, limit = n + 1 := by
      apply Nat.exists_eq_succ_of_ne_zero
      rintro rfl
      simp [hw] at hl
    have hl' : (BodyItem.writeAll items).length ≤ limit := by
      rw [hw, List.length_append, List.length_cons] at hl
      omega
    have hne : item.write ++ BodyItem.writeAll items ≠ [] := by simp [hw]
    have hs' : ∀ item ∈ items, item.Sound := fun item hi => hs item (.tail _ hi)
    rw [List.length_append] at hp
    cases item with
    | group device =>
      rw [readGroups_group hne hread, gather]
      exact ih hs' nofun hl' (by omega)
    | chunk c =>
      cases groups with
      | nil => exact (hg rfl).elim
      | cons last groups =>
        -- Places are counted from the end of what is read, which is the end of the body.
        have hplace : size - ((BodyItem.chunk c).write ++ BodyItem.writeAll items).length =
            position := by
          rw [List.length_append]
          omega
        rw [readGroups_chunk hne hread, hplace, gather]
        exact ih hs' nofun hl' (by omega)

end Document

/-- If the front of a body and of what comes behind it is used up by things of a body, it ends
where one of the body's own things ends. -/
theorem BodyItem.aligned {items : List BodyItem} (hs : ∀ item ∈ items, item.Sound)
    {front behind : Bytes} (hf : front <+: writeAll items ++ Frame.footerMarker :: behind)
    {size limit : Nat} {groups found : List Group} (hl : front.length ≤ limit)
    (h : Document.readGroups size limit groups front = .ok found) :
    ∃ before after, items = before ++ after ∧ front = writeAll before := by
  induction items generalizing limit front groups with
  | nil =>
    refine ⟨[], [], rfl, ?_⟩
    cases front with
    | nil => rfl
    | cons marker front =>
      obtain ⟨limit, rfl⟩ : ∃ n, limit = n + 1 :=
        Nat.exists_eq_succ_of_ne_zero (Nat.ne_of_gt (Nat.lt_of_lt_of_le (Nat.succ_pos _) hl))
      -- The things of the body are used up: what is left begins like the footer.
      obtain ⟨rfl, -⟩ := List.cons_prefix_cons.1 hf
      obtain ⟨item, rest, groups', hr, -⟩ := Document.readGroups_ok (List.cons_ne_nil _ _) h
      exact (read_footerMarker hr).elim
  | cons item items ih =>
    by_cases hempty : front = []
    · exact ⟨[], item :: items, rfl, hempty⟩
    · obtain ⟨limit, rfl⟩ : ∃ n, limit = n + 1 := by
        apply Nat.exists_eq_succ_of_ne_zero
        rintro rfl
        exact hempty (List.eq_nil_of_length_eq_zero (Nat.le_zero.1 hl))
      obtain ⟨item', rest, groups', hr, hrest⟩ := Document.readGroups_ok hempty h
      rw [writeAll_cons, List.append_assoc] at hf
      -- What is read from the front is the body's own next thing.
      obtain ⟨rfl, rfl⟩ := (BodyItem.reads (hs item (.head _))).eq_append local_read hf hr
      obtain ⟨marker, bytes, hw, -⟩ := item'.write_eq_cons
      rw [hw, List.length_append, List.length_cons] at hl
      obtain ⟨before, after, rfl, hb⟩ := ih (fun item hi => hs item (.tail _ hi))
        ((List.prefix_append_right_inj _).1 hf) (by omega) hrest
      exact ⟨item' :: before, after, rfl, by rw [writeAll_cons, hb]⟩

/-! ### Images -/

namespace Frame

@[simp]
theorem length_write_tail (t : Tail) : t.write.length = tailSize := by
  simp [Tail.write, magic, tailSize]

/-- A tail is read back. -/
theorem ofBytes_write_tail (t : Tail) : Tail.ofBytes t.write = .ok t := by
  have hchecksum : (Bytes.u32 t.checksum).ofLittleEndian = t.checksum.toNat := by
    rw [Bytes.u32, Bytes.ofLittleEndian_littleEndian]
    exact Nat.mod_eq_of_lt t.checksum.toNat_lt
  have hlength : (Bytes.u32 t.footerLength).ofLittleEndian = t.footerLength.toNat := by
    rw [Bytes.u32, Bytes.ofLittleEndian_littleEndian]
    exact Nat.mod_eq_of_lt t.footerLength.toNat_lt
  -- The magic, and before it the two numbers in their places.
  have hdrop : t.write.drop 8 = magic := by
    rw [Tail.write]
    exact List.drop_left' (by simp)
  have htake : t.write.take 4 = Bytes.u32 t.checksum := by
    rw [Tail.write, List.append_assoc]
    exact List.take_left' (by simp)
  have hmiddle : (t.write.drop 4).take 4 = Bytes.u32 t.footerLength := by
    rw [Tail.write, List.append_assoc, List.drop_left' (by simp)]
    exact List.take_left' (by simp)
  rw [Tail.ofBytes]
  simp [hdrop, htake, hmiddle, hchecksum, hlength]

/-- The head is read back. -/
theorem reads_head : Reads readHead head version :=
  fun _ => rfl

/-- A head that can be read has its fixed number of bytes. -/
theorem readHead_ok {bytes rest : Bytes} {found : UInt8} (h : readHead bytes = .ok (found, rest)) :
    ∃ front, front.length = headSize ∧ bytes = front ++ rest := by
  obtain ⟨front, left, ht, h⟩ := Reader.bind_ok.1 h
  have hrest : left = rest := by
    split at h
    · contradiction
    · split at h
      · contradiction
      · exact (Prod.mk.inj (Except.ok.inj h)).2
  rw [Reader.take, Bytes.split?_eq] at ht
  by_cases hsize : headSize ≤ bytes.length
  · rw [if_pos hsize] at ht
    obtain ⟨rfl, rfl⟩ := Prod.mk.inj (Except.ok.inj ht)
    exact ⟨_, List.length_take_of_le hsize, by rw [← hrest, List.take_append_drop]⟩
  · rw [if_neg hsize] at ht
    contradiction

end Frame

/-- What a complete file is made of. -/
structure Image where
  items : List BodyItem
  footer : Footer

namespace Image

/-- The bytes of a file that its checksum covers. -/
def covered (i : Image) : Bytes :=
  Frame.head ++ BodyItem.writeAll i.items ++ i.footer.write

/-- The tail of a file. -/
def tail (i : Image) : Frame.Tail :=
  ⟨Crc32.hash i.covered, UInt32.ofNat i.footer.write.length⟩

/-- The bytes of a file. -/
def file (i : Image) : Bytes :=
  i.covered ++ i.tail.write

/-- Everything in a file fits its field. -/
structure Sound (i : Image) : Prop where
  items : ∀ item ∈ i.items, item.Sound
  footer : i.footer.Sound
  footerLength : i.footer.write.length < 2 ^ 32

/-- What is read from a file. -/
def document (i : Image) : Document :=
  ⟨Frame.version, Document.inOrder (Document.gather Frame.headSize [] i.items), i.footer, i.tail⟩

/-- A file is read back. -/
theorem parse_file {i : Image} (h : i.Sound) (hg : BodyItem.StartsWithGroup i.items) :
    Document.parse i.file = .ok i.document := by
  have hgroups := @Document.readGroups_writeAll i.items h.items
    (Frame.headSize + (BodyItem.writeAll i.items).length) _ Frame.headSize [] (fun _ => hg)
    (Nat.le_refl _) rfl
  -- From the length of the file follows where its tail starts, and from what the tail says where
  -- the footer starts and the body ends.
  have hstart : i.file.length - Frame.tailSize = i.covered.length := by
    rw [file, List.length_append, Frame.length_write_tail, Nat.add_sub_cancel]
  have htake : i.file.take i.covered.length = i.covered := List.take_left
  have hdrop : i.file.drop i.covered.length = i.tail.write := List.drop_left
  have hlong : ¬i.file.length < Frame.headSize + Frame.tailSize := by
    rw [file, List.length_append, Frame.length_write_tail, covered, List.length_append,
      List.length_append]
    have : Frame.head.length = Frame.headSize := rfl
    omega
  have hbody : (Frame.head ++ BodyItem.writeAll i.items).length =
      Frame.headSize + (BodyItem.writeAll i.items).length := by
    rw [List.length_append]
    rfl
  have hfooterLength : i.tail.footerLength.toNat = i.footer.write.length :=
    UInt32.toNat_ofNat_of_lt' h.footerLength
  have hfooterStart : i.covered.length - i.footer.write.length =
      Frame.headSize + (BodyItem.writeAll i.items).length := by
    rw [covered, List.length_append, Nat.add_sub_cancel, hbody]
  have hfits : ¬i.covered.length < i.footer.write.length := by
    rw [covered, List.length_append]
    omega
  have hfooter := Footer.reads h.footerLength h.footer []
  rw [List.append_nil] at hfooter
  have hfront : i.covered.take (Frame.headSize + (BodyItem.writeAll i.items).length) =
      Frame.head ++ BodyItem.writeAll i.items := List.take_left' hbody
  have hback : i.covered.drop (Frame.headSize + (BodyItem.writeAll i.items).length) =
      i.footer.write := List.drop_left' hbody
  rw [Document.parse, if_neg hlong]
  simp only [hstart, htake, hdrop, Frame.ofBytes_write_tail, ok_bind, hfooterLength]
  -- The checksum was taken of just these bytes.
  have hchecksum : Crc32.hash i.covered = i.tail.checksum := rfl
  rw [if_neg (not_not_intro hchecksum), if_neg hfits]
  simp only [hfooterStart, hback, hfront, hfooter, Frame.reads_head _, ok_bind, hgroups]
  rfl

/-- In a file that is read back the chunks are those of the body. -/
theorem located_document {i : Image} (hg : BodyItem.StartsWithGroup i.items) :
    i.document.located = BodyItem.locate "" Frame.headSize i.items :=
  Document.located_gather fun _ => hg

end Image

/-- What bytes are made of that can be read as a file. -/
theorem Document.parse_ok {file : Bytes} {d : Document} (h : parse file = .ok d) :
    ∃ head body footer tail left, file = head ++ body ++ footer ++ tail ∧
      head.length = Frame.headSize ∧ tail.length = Frame.tailSize ∧
      Footer.read footer = .ok (d.footer, left) ∧
      readGroups (head ++ body).length body.length [] body = .ok d.groups := by
  rw [parse] at h
  split at h
  · contradiction
  rename_i hlong
  obtain ⟨tail, -, h⟩ := bind_eq_ok.1 h
  dsimp only at h
  split at h
  · contradiction
  split at h
  · contradiction
  rename_i hfits
  obtain ⟨⟨footer, left⟩, hfooter, h⟩ := bind_eq_ok.1 h
  obtain ⟨⟨version, body⟩, hhead, h⟩ := bind_eq_ok.1 h
  obtain ⟨groups, hgroups, h⟩ := bind_eq_ok.1 h
  obtain rfl := Except.ok.inj h
  obtain ⟨head, hlength, hfront⟩ := Frame.readHead_ok hhead
  -- Head and body are what is before the footer, whose length the tail states.
  have hsize : (head ++ body).length = file.length - Frame.tailSize - tail.footerLength.toNat := by
    rw [← hfront, List.length_take, List.length_take]
    omega
  refine ⟨head, body, _, file.drop (file.length - Frame.tailSize), left, ?_, hlength, ?_, hfooter,
    ?_⟩
  · rw [← hfront, List.take_append_drop, List.take_append_drop]
  · rw [List.length_drop]
    omega
  · rw [hsize]
    exact hgroups

namespace Image

/-- No front of a file is a file, but for the whole of it. -/
theorem parse_front {i : Image} (h : i.Sound) {bytes : Bytes} (hb : bytes <+: i.file)
    (hne : bytes ≠ i.file) (d : Document) : Document.parse bytes ≠ .ok d := by
  intro hp
  obtain ⟨head, body, footer, tail, left, rfl, hhead, htail, hfooter, hgroups⟩ :=
    Document.parse_ok hp
  obtain ⟨missing, hm⟩ := hb
  have hmissing : 0 < missing.length := by
    refine List.length_pos_iff.2 fun hnil => hne ?_
    rw [← hm, hnil, List.append_nil]
  -- Behind the head both sides go on with the body.
  have hbehind : body ++ (footer ++ (tail ++ missing)) =
      BodyItem.writeAll i.items ++ (i.footer.write ++ i.tail.write) := by
    refine (List.append_inj (?_ : head ++ _ = Frame.head ++ _) hhead).2
    simpa [file, covered] using hm
  obtain ⟨before, after, hitems, rfl⟩ := BodyItem.aligned h.items
    ⟨footer ++ (tail ++ missing), hbehind⟩ (Nat.le_refl _) hgroups
  rw [hitems, BodyItem.writeAll_append, List.append_assoc] at hbehind
  have hrest := List.append_cancel_left hbehind
  cases after with
  | nil =>
    -- The whole body is there, so the footer is read where it is. Then nothing is missing.
    have hfront : footer <+: i.footer.write ++ i.tail.write := ⟨_, hrest⟩
    obtain ⟨-, rfl⟩ := (Footer.reads h.footerLength h.footer).eq_append Footer.local_read hfront
      hfooter
    have hlength := congrArg List.length hrest
    simp only [BodyItem.writeAll_nil, List.nil_append, List.length_append,
      Frame.length_write_tail] at hlength
    omega
  | cons item after =>
    -- The footer would have to begin with the marker of a thing of the body.
    obtain ⟨marker, bytes, hw, hmarker⟩ := item.write_eq_cons
    obtain ⟨behind, rfl⟩ := Footer.marker_of_read hfooter
    rw [BodyItem.writeAll_cons, hw] at hrest
    exact hmarker (List.cons.inj hrest).1.symm

end Image

/-! ### What is not finished -/

/-- Bytes that some file starts with, and that are not the whole of it. -/
def Unfinished (bytes : Bytes) : Prop :=
  ∃ i : Image, i.Sound ∧ bytes <+: i.file ∧ bytes ≠ i.file

namespace Unfinished

variable {bytes front : Bytes}

/-- What is not finished cannot be read as a file. -/
theorem parse (h : Unfinished bytes) (d : Document) : Document.parse bytes ≠ .ok d := by
  obtain ⟨i, hi, hb, hne⟩ := h
  exact i.parse_front hi hb hne d

/-- The fronts of what is not finished are not finished. -/
theorem of_front (h : Unfinished bytes) (hf : front <+: bytes) : Unfinished front := by
  obtain ⟨i, hi, hb, hne⟩ := h
  refine ⟨i, hi, hf.trans hb, fun heq => hne (hb.eq_of_length_le ?_)⟩
  rw [← heq]
  exact hf.length_le

/-- The footer of a file without series. -/
def bareFooter : Footer := ⟨SeriesTable.empty, [], ⟨[0], 0⟩⟩

/-- As long as there is no more than a body, any footer may follow. -/
theorem of_body {items : List BodyItem} (hs : ∀ item ∈ items, item.Sound)
    (h : bytes <+: Frame.head ++ BodyItem.writeAll items) : Unfinished bytes := by
  have hfile : Image.file ⟨items, bareFooter⟩ = Frame.head ++ BodyItem.writeAll items ++
      (bareFooter.write ++ (Image.tail ⟨items, bareFooter⟩).write) := by
    rw [Image.file, Image.covered, List.append_assoc]
  have hlength : bareFooter.write.length < 2 ^ 32 := by decide
  refine ⟨⟨items, bareFooter⟩, ⟨hs, ⟨nofun, nofun⟩, hlength⟩, ?_, ?_⟩
  · rw [hfile]
    exact h.trans (List.prefix_append _ _)
  · intro heq
    have hle := h.length_le
    simp only [heq, hfile, List.length_append, Frame.length_write_tail] at hle
    have : 0 < Frame.tailSize := by decide
    omega

end Unfinished

end SeriesFile
