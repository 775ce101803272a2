import Mathlib.Data.List.Basic
import SeriesFile.Proofs.Chunks
import SeriesFile.Proofs.Image

/-!
# The body that runs make

A writer puts the chunks of runs one behind the other and begins a group whenever the device changes
(`Run.layout`). Where each chunk comes to stand follows (`Run.place`), and with it what the footer
has to say of a series (`Run.entriesOf`). Reading a body that was made so finds every chunk at its
place and in the group of its device (`Run.locate_layout`); so the points of a series are those of
its runs, in order (`Document.pointsOf_entriesOf`).

A run is added at the end, and everything here is known of one run more by adding what belongs to
the last one.
-/

namespace SeriesFile

/-! ### Things sorted by their keys -/

/-- Things with their keys, sorted by key, are the same things. -/
theorem perm_flatMap_filter {α κ : Type} [DecidableEq κ] (keyOf : α → κ) {keys : List κ}
    (hk : keys.Nodup) {as : List α} (h : ∀ a ∈ as, keyOf a ∈ keys) :
    (keys.flatMap fun key => as.filter fun a => keyOf a = key).Perm as := by
  induction keys generalizing as with
  | nil =>
    have hnil : as = [] := List.eq_nil_iff_forall_not_mem.2 fun a ha => List.not_mem_nil (h a ha)
    rw [hnil]
    exact .nil
  | cons key keys ih =>
    obtain ⟨hfirst, hothers⟩ := List.nodup_cons.1 hk
    -- Of the others, those with the first key are taken out before the induction goes on.
    have hrest := @ih hothers (as.filter fun a => !decide (keyOf a = key)) fun a ha => by
      obtain ⟨hmem, hne⟩ := List.mem_filter.1 ha
      rcases List.mem_cons.1 (h a hmem) with heq | hmem
      · simp [heq] at hne
      · exact hmem
    -- The other keys do not miss them.
    have hsame : (keys.flatMap fun key => as.filter fun a => keyOf a = key) =
        keys.flatMap fun key' =>
          (as.filter fun a => !decide (keyOf a = key)).filter fun a => keyOf a = key' := by
      apply List.flatMap_congr
      intro key' hk'
      have hne : key' ≠ key := fun heq => hfirst (heq ▸ hk')
      rw [List.filter_filter]
      apply List.filter_congr
      intro a _
      by_cases ha : keyOf a = key' <;> simp [ha, hne]
    rw [List.flatMap_cons, hsame]
    exact (hrest.append_left _).trans (List.filter_append_perm _ as)

variable [Compressor]

namespace Run

/-- The beginning of the group of a device, unless it was begun last. -/
def opening (last : Option String) (device : String) : List BodyItem :=
  if last = some device then [] else [.group device]

/-- The body that runs make when the group of `device` was begun last. -/
def layout : (device : Option String) → List Run → List BodyItem
  | _, [] => []
  | device, run :: runs =>
    opening device run.key.device ++ .chunk run.chunk :: layout (some run.key.device) runs

/-- The device whose group was begun last after some runs. -/
def lastDevice (device : Option String) (runs : List Run) : Option String :=
  runs.foldl (fun _ run => some run.key.device) device

/-- The runs with the positions of their chunks, from a position on. -/
def place : (device : Option String) → (position : Nat) → List Run → List (Nat × Run)
  | _, _, [] => []
  | device, position, run :: runs =>
    let start := position + (BodyItem.writeAll (opening device run.key.device)).length
    (start, run) :: place (some run.key.device) (start + run.chunk.write.length) runs

/-- What the footer says of a chunk. -/
def entry (placed : Nat × Run) : ChunkEntry :=
  ⟨UInt64.ofNat placed.1, placed.2.statistics⟩

/-- The runs of a whole file with the positions of their chunks. -/
def inFile (runs : List Run) : List (Nat × Run) :=
  place none Frame.headSize runs

/-- What the footer says of the chunks of a series. -/
def entriesOf (key : SeriesKey) (runs : List Run) : List ChunkEntry :=
  ((inFile runs).filter fun placed => placed.2.key = key).map entry

/-- The points of a series. -/
def pointsOf (key : SeriesKey) (runs : List Run) : List Point :=
  (runs.filter fun run => run.key = key).flatMap points

/-! ### One run more -/

/-- After a run its device is the last one. -/
@[simp]
theorem lastDevice_append (device : Option String) (runs : List Run) (run : Run) :
    lastDevice device (runs ++ [run]) = some run.key.device :=
  List.foldl_append ..

/-- Further runs go on from the device that was begun last. -/
theorem layout_append (device : Option String) (runs new : List Run) :
    layout device (runs ++ new) = layout device runs ++ layout (lastDevice device runs) new := by
  induction runs generalizing device with
  | nil => rfl
  | cons first runs ih =>
    rw [List.cons_append, layout, ih, layout, List.append_assoc, List.cons_append]
    rfl

/-- One run more is a group, unless it is begun already, and a chunk. -/
theorem layout_concat (device : Option String) (runs : List Run) (run : Run) :
    layout device (runs ++ [run]) = layout device runs ++
      (opening (lastDevice device runs) run.key.device ++ [.chunk run.chunk]) :=
  layout_append device runs [run]

/-- One run more stands behind all others and the beginning of its group. -/
theorem place_append (device : Option String) (position : Nat) (runs : List Run) (run : Run) :
    place device position (runs ++ [run]) = place device position runs ++
      [(position + (BodyItem.writeAll (layout device runs)).length +
        (BodyItem.writeAll (opening (lastDevice device runs) run.key.device)).length, run)] := by
  induction runs generalizing device position with
  | nil => rfl
  | cons first runs ih =>
    have hlength : (BodyItem.chunk first.chunk).write = first.chunk.write := rfl
    rw [List.cons_append, place, ih, place, List.cons_append, layout, BodyItem.writeAll_append,
      BodyItem.writeAll_cons, hlength]
    simp only [List.length_append, Nat.add_assoc]
    rfl

/-- Placing runs neither changes nor drops any. -/
theorem map_place (device : Option String) (position : Nat) (runs : List Run) :
    (place device position runs).map Prod.snd = runs := by
  induction runs generalizing device position with
  | nil => rfl
  | cons run runs ih => rw [place, List.map_cons, ih]

theorem map_inFile (runs : List Run) : (inFile runs).map Prod.snd = runs :=
  map_place none Frame.headSize runs

theorem length_inFile (runs : List Run) : (inFile runs).length = runs.length := by
  rw [← List.length_map Prod.snd, map_inFile]

/-- What is in the file is a run of it. -/
theorem mem_of_mem_inFile {runs : List Run} {placed : Nat × Run} (h : placed ∈ inFile runs) :
    placed.2 ∈ runs :=
  map_inFile runs ▸ List.mem_map_of_mem h

/-- The position of a chunk that is added to the end of the body. -/
def nextPlace (runs : List Run) (run : Run) : Nat :=
  Frame.headSize + (BodyItem.writeAll (layout none runs)).length +
    (BodyItem.writeAll (opening (lastDevice none runs) run.key.device)).length

/-- Up to the next place there are the head, the body so far and the beginning of the group. -/
theorem length_before (runs : List Run) (run : Run) :
    (Frame.head ++ BodyItem.writeAll (layout none runs ++
      opening (lastDevice none runs) run.key.device)).length = run.nextPlace runs := by
  rw [BodyItem.writeAll_append, ← List.append_assoc, List.length_append, List.length_append]
  rfl

/-- One run more stands at the next place. -/
theorem inFile_append (runs : List Run) (run : Run) :
    inFile (runs ++ [run]) = inFile runs ++ [(run.nextPlace runs, run)] :=
  place_append none Frame.headSize runs run

/-- One run more is one entry more for its series and none for the others. -/
theorem entriesOf_append (key : SeriesKey) (runs : List Run) (run : Run) :
    entriesOf key (runs ++ [run]) = entriesOf key runs ++
      if run.key = key then [entry (run.nextPlace runs, run)] else [] := by
  rw [entriesOf, inFile_append, List.filter_append, List.map_append, entriesOf]
  by_cases hkey : run.key = key <;> simp [hkey]

/-- Its points are further points of its series. -/
theorem pointsOf_append (key : SeriesKey) (runs : List Run) (run : Run) :
    pointsOf key (runs ++ [run]) =
      pointsOf key runs ++ if run.key = key then run.points else [] := by
  rw [pointsOf, List.filter_append, List.flatMap_append, pointsOf]
  by_cases hkey : run.key = key <;> simp [hkey]

/-- The points of a series can be read off the runs with their positions, too. -/
theorem pointsOf_eq_flatMap (key : SeriesKey) (runs : List Run) :
    pointsOf key runs = ((inFile runs).filter fun placed => placed.2.key = key).flatMap
      fun placed => placed.2.points := by
  conv => lhs; rw [pointsOf, ← map_inFile runs, List.filter_map, List.flatMap_map]
  rfl

/-- Beginnings of groups are passed over. -/
theorem filterMap_chunk?_layout (device : Option String) (runs : List Run) :
    (layout device runs).filterMap BodyItem.chunk? = runs.map Run.chunk := by
  induction runs generalizing device with
  | nil => rfl
  | cons run runs ih =>
    have hopening : (opening device run.key.device).filterMap BodyItem.chunk? = [] := by
      rw [opening]
      split <;> rfl
    rw [layout, List.filterMap_append, hopening, List.nil_append, List.filterMap_cons, List.map_cons]
    exact congrArg (run.chunk :: ·) (ih _)

/-- The chunks of a body that runs make are those of the runs. -/
theorem chunksOf_layout {runs : List Run} (hs : ∀ item ∈ layout none runs, item.Sound) :
    BodyItem.chunksOf (Frame.head ++ BodyItem.writeAll (layout none runs)) = runs.map Run.chunk := by
  rw [BodyItem.chunksOf, BodyItem.ofUnfinished_writeAll hs, filterMap_chunk?_layout]

/-! ### Positions -/

/-- Every chunk begins inside the body. -/
theorem place_bounds {device : Option String} {position : Nat} {runs : List Run}
    {placed : Nat × Run} (h : placed ∈ place device position runs) :
    position ≤ placed.1 ∧
      placed.1 < position + (BodyItem.writeAll (layout device runs)).length := by
  induction runs generalizing device position with
  | nil => contradiction
  | cons run runs ih =>
    have hwrite := run.chunk.length_write_pos
    have hlength : (BodyItem.writeAll (layout device (run :: runs))).length =
        (BodyItem.writeAll (opening device run.key.device)).length + (run.chunk.write.length +
          (BodyItem.writeAll (layout (some run.key.device) runs)).length) := by
      rw [layout, BodyItem.writeAll_append, BodyItem.writeAll_cons, List.length_append,
        List.length_append]
      rfl
    rw [hlength]
    rcases List.mem_cons.1 h with rfl | h
    · dsimp only
      omega
    · have hbounds := ih h
      omega

/-- Chunks stand in the file in the order of the runs. -/
theorem place_ascends (device : Option String) (position : Nat) (runs : List Run) :
    (place device position runs).Pairwise fun a b => a.1 < b.1 := by
  induction runs generalizing device position with
  | nil => exact .nil
  | cons run runs ih =>
    refine .cons ?_ (ih _ _)
    intro placed h
    have hwrite := run.chunk.length_write_pos
    -- All later chunks begin behind this one, which is not empty.
    have hbounds := (place_bounds h).1
    dsimp only
    omega

/-- The bytes of a chunk stand at its place. -/
theorem write_of_mem_place {device : Option String} {position : Nat} {runs : List Run}
    {placed : Nat × Run} (h : placed ∈ place device position runs) :
    ∃ before behind, placed.1 = position + before.length ∧
      BodyItem.writeAll (layout device runs) = before ++ (placed.2.chunk.write ++ behind) := by
  induction runs generalizing device position with
  | nil => contradiction
  | cons run runs ih =>
    rw [layout, BodyItem.writeAll_append, BodyItem.writeAll_cons]
    rcases List.mem_cons.1 h with rfl | h
    · exact ⟨_, _, rfl, rfl⟩
    · -- What stands before it in the rest has this run and its group in front.
      obtain ⟨before, behind, hplace, hwrite⟩ := ih h
      refine ⟨BodyItem.writeAll (opening device run.key.device) ++ (run.chunk.write ++ before),
        behind, ?_, ?_⟩
      · rw [hplace, List.length_append, List.length_append]
        omega
      · rw [hwrite, List.append_assoc, List.append_assoc]
        rfl

/-! ### Reading the body -/

/-- Every chunk stands at its place and in the group of its device. -/
theorem locate_layout {name : String} {device : Option String} (h : ∀ d ∈ device, d = name)
    (position : Nat) (runs : List Run) :
    BodyItem.locate name position (layout device runs) =
      (place device position runs).map fun placed =>
        (placed.2.key.device, ⟨placed.1, placed.2.chunk⟩) := by
  induction runs generalizing name device position with
  | nil => rfl
  | cons run runs ih =>
    have hrest (start : Nat) := @ih run.key.device (some run.key.device)
      (fun d hd => (Option.some.inj hd).symm) start
    rw [layout, place, List.map_cons, opening]
    -- Either the group goes on and is that of the device, or a marker begins it.
    by_cases hdevice : device = some run.key.device
    · rw [if_pos hdevice, ← h _ hdevice]
      simp only [List.nil_append, BodyItem.locate, BodyItem.writeAll_nil, List.length_nil,
        Nat.add_zero, hrest]
      rfl
    · rw [if_neg hdevice]
      simp only [List.cons_append, List.nil_append, BodyItem.locate, BodyItem.writeAll_cons,
        BodyItem.writeAll_nil, List.append_nil, hrest]
      rfl

/-- The first chunk is never without a group. -/
theorem startsWithGroup_layout (runs : List Run) :
    BodyItem.StartsWithGroup (layout none runs) := by
  cases runs with
  | nil => exact trivial
  | cons run runs =>
    have hnone : none ≠ some run.key.device := nofun
    rw [layout, opening, if_neg hnone]
    exact trivial

/-- Whatever runs make can be read back, if their names can. -/
theorem sound_layout {device : Option String} {runs : List Run}
    (h : ∀ run ∈ runs, run.key.device.utf8ByteSize < 2 ^ 64 ∧
      run.key.measurement.utf8ByteSize < 2 ^ 64) :
    ∀ item ∈ layout device runs, item.Sound := by
  induction runs generalizing device with
  | nil => exact fun item h => (List.not_mem_nil h).elim
  | cons run runs ih =>
    obtain ⟨hdevice, hmeasurement⟩ := h run (.head _)
    intro item hitem
    rcases List.mem_append.1 hitem with hitem | hitem
    · rw [opening] at hitem
      split at hitem
      · contradiction
      · obtain rfl := List.mem_singleton.1 hitem
        exact hdevice
    · rcases List.mem_cons.1 hitem with rfl | hitem
      · exact run.sound hmeasurement
      · -- The items of later runs are sound by induction.
        exact ih (fun run hr => h run (.tail _ hr)) item hitem

/-- The size of a body is bounded by the number of its chunks, if the names are no longer than the
footer can be. -/
theorem length_layout_le {device : Option String} {runs : List Run}
    (h : ∀ run ∈ runs, run.key.device.utf8ByteSize < 2 ^ 32 ∧
      run.key.measurement.utf8ByteSize < 2 ^ 32) :
    (BodyItem.writeAll (layout device runs)).length ≤ runs.length * 2 ^ 36 := by
  induction runs generalizing device with
  | nil => exact Nat.zero_le _
  | cons run runs ih =>
    obtain ⟨hdevice, hmeasurement⟩ := h run (.head _)
    have hchunk : (BodyItem.chunk run.chunk).write.length < 2 ^ 35 :=
      run.length_write_lt hmeasurement
    -- A marker is a byte, a length and a name.
    have hopening : (BodyItem.writeAll (opening device run.key.device)).length < 2 ^ 33 := by
      rw [opening]
      split
      · decide
      · have hvarint := Varint.length_encode_le (UInt64.ofNat run.key.device.utf8ByteSize)
        simp only [BodyItem.writeAll_cons, BodyItem.writeAll_nil, List.append_nil, BodyItem.write,
          Frame.group, Bytes.text, List.length_cons, List.length_append, Utf8.length_encode]
        omega
    have hrest := @ih (some run.key.device) fun run hr => h run (.tail _ hr)
    rw [layout, BodyItem.writeAll_append, BodyItem.writeAll_cons, List.length_append,
      List.length_append, List.length_cons, Nat.succ_mul]
    omega

end Run

/-! ### The points of a series -/

namespace Document

variable {d : Document} {runs : List Run}

/-- Of things in the order of their positions one is found by its position. -/
theorem find?_of_ascends {places : List (Nat × Run)}
    (ha : places.Pairwise fun a b => a.1 < b.1) {placed : Nat × Run} (hp : placed ∈ places) :
    places.find? (fun other => other.1 = placed.1) = some placed := by
  induction places with
  | nil => contradiction
  | cons first others ih =>
    obtain ⟨hfirst, hothers⟩ := List.pairwise_cons.1 ha
    rcases List.mem_cons.1 hp with rfl | hp
    · simp
    · have hne : first.1 ≠ placed.1 := Nat.ne_of_lt (hfirst placed hp)
      rw [List.find?_cons_of_neg (by simpa using hne)]
      exact ih hothers hp

/-- In a file of runs the chunk at a position is that of the run that was placed there. -/
theorem chunkAt?_of_mem (hd : d.chunks = (Run.inFile runs).map fun placed =>
      ⟨placed.1, placed.2.chunk⟩) {placed : Nat × Run} (hp : placed ∈ Run.inFile runs)
    (fits : placed.1 < 2 ^ 64) : d.chunkAt? (UInt64.ofNat placed.1) = some placed.2.chunk := by
  have hfind := find?_of_ascends (Run.place_ascends none Frame.headSize runs) hp
  rw [chunkAt?, hd, List.find?_map, UInt64.toNat_ofNat_of_lt' fits]
  simp only [Run.inFile, Function.comp_def, hfind]
  rfl

/-- Entry by entry the chunk is found at its place and gives the points of its run: by induction on
the entries, which may be any of those in the file. -/
theorem pointsOf_map_entry (hd : d.chunks = (Run.inFile runs).map fun placed =>
      ⟨placed.1, placed.2.chunk⟩) (fits : ∀ placed ∈ Run.inFile runs, placed.1 < 2 ^ 64)
    {some : List (Nat × Run)} (h : ∀ placed ∈ some, placed ∈ Run.inFile runs) :
    d.pointsOf (some.map Run.entry) = .some (some.flatMap fun placed => placed.2.points) := by
  induction some with
  | nil => rfl
  | cons placed others ih =>
    have hmem := h placed (.head _)
    have hrest := ih fun other ho => h other (.tail _ ho)
    rw [List.map_cons, pointsOf, Run.entry, chunkAt?_of_mem hd hmem (fits placed hmem)]
    simp only [Option.bind_eq_bind, Option.bind_some, placed.2.points_eq, hrest,
      List.flatMap_cons, Option.pure_def]

/-- In a file of runs the entries of a series lead to the points of the series. -/
theorem pointsOf_entriesOf (hd : d.chunks = (Run.inFile runs).map fun placed =>
      ⟨placed.1, placed.2.chunk⟩) (fits : ∀ placed ∈ Run.inFile runs, placed.1 < 2 ^ 64)
    (key : SeriesKey) : d.pointsOf (Run.entriesOf key runs) = some (Run.pointsOf key runs) := by
  rw [Run.entriesOf, Run.pointsOf_eq_flatMap]
  exact pointsOf_map_entry hd fits fun placed hp => (List.mem_filter.1 hp).1

end Document

end SeriesFile
