import Mathlib.Data.List.Chain
import SeriesFile.Proofs.Correspondence

/-!
# Groups

A group is begun where the device is another than that of the chunk before, whenever that chunk was
written (`Run.opening`). So the groups of a file have chunks, all of them of their device, and
neighbours are of different devices (`Document.Grouped`). This is kept by each run that is gathered
(`Group.Divided.gather`), and it makes the devices of groups ascend if those of the chunks never
descend (`Document.ascends_devices`).

What a flush adds to a file depends on what is buffered and on the last run before: one chunk for
every buffer that has points, in the order of the series (`Writer.Empties`). Closing adds the same,
the footer and the tail (`Writer.chunks_grouped`).
-/

namespace SeriesFile

/-! ### Groups and their neighbours -/

namespace Group

/-- Groups that have chunks, each of another device than its neighbours. -/
structure Divided (groups : List Group) : Prop where
  nonempty : ∀ g ∈ groups, g.chunks ≠ []
  changes : groups.IsChain fun a b => a.device ≠ b.device

namespace Divided

variable {groups : List Group}

/-- No groups are divided. -/
theorem nil : Divided [] :=
  ⟨fun _ hg => (List.not_mem_nil hg).elim, .nil⟩

/-- A group is begun with its first chunk. -/
theorem begin (h : Divided groups) {device : String}
    (hne : groups.head?.map Group.device ≠ some device) (placed : PlacedChunk) :
    Divided (⟨device, [placed]⟩ :: groups) := by
  refine ⟨?_, List.isChain_cons.2 ⟨?_, h.changes⟩⟩
  · intro g hg
    rcases List.mem_cons.1 hg with rfl | hg
    · exact List.cons_ne_nil _ _
    · exact h.nonempty g hg
  · intro g hg heq
    apply hne
    rw [Option.mem_def.1 hg, Option.map_some, ← heq]

/-- The last group gets one chunk more. -/
theorem push {last : Group} (h : Divided (last :: groups)) (placed : PlacedChunk) :
    Divided ({ last with chunks := placed :: last.chunks } :: groups) := by
  obtain ⟨hhead, htail⟩ := List.isChain_cons.1 h.changes
  refine ⟨?_, List.isChain_cons.2 ⟨hhead, htail⟩⟩
  intro g hg
  rcases List.mem_cons.1 hg with rfl | hg
  · exact List.cons_ne_nil _ _
  · exact h.nonempty g (.tail _ hg)

/-- Divided groups are divided the other way round. -/
theorem inOrder (h : Divided groups) : Divided (Document.inOrder groups) := by
  constructor
  · intro g hg
    obtain ⟨other, ho, rfl⟩ := List.mem_map.1 hg
    intro hnil
    apply h.nonempty other (List.mem_reverse.1 ho)
    exact List.reverse_eq_nil_iff.1 hnil
  · rw [Document.inOrder, List.isChain_map, List.isChain_reverse]
    exact h.changes.imp fun a b hne => hne.symm

/-- What runs write is divided into groups, if the group that was begun last is that of the run
before. -/
theorem gather [Compressor] {device : Option String} {runs : List Run} {position : Nat}
    (h : Divided groups) (hdevice : groups.head?.map Group.device = device) :
    Divided (Document.gather position groups (Run.layout device runs)) := by
  induction runs generalizing device position groups with
  | nil => exact h
  | cons run runs ih =>
    rw [Run.layout, Run.opening]
    by_cases hsame : device = some run.key.device
    · rw [if_pos hsame, List.nil_append]
      cases groups with
      | nil =>
        rw [hsame] at hdevice
        contradiction
      | cons last groups =>
        -- A chunk of the same device joins the group that is open.
        exact ih (h.push _) (hdevice.trans hsame)
    · rw [if_neg hsame]
      -- Any other begins a group of its own.
      have hbegun := fun placed => h.begin (hdevice ▸ hsame) placed
      exact ih (hbegun _) rfl

end Divided

end Group

/-! ### Files in groups -/

/-- Names that differ and do not descend ascend. -/
theorem compare_lt_of_ne {a b : String} (hle : (compare a b).isLE) (hne : a ≠ b) :
    compare a b = .lt := by
  cases hcompare : compare a b with
  | lt => rfl
  | eq => exact absurd (Std.LawfulEqCmp.eq_of_compare hcompare) hne
  | gt => simp [hcompare] at hle

/-- Series that ascend are of devices that do not descend. -/
theorem SeriesKey.isLE_device {a b : SeriesKey} (h : compare a b = .lt) :
    (compare a.device b.device).isLE := by
  change (compare a.device b.device).then (compare a.measurement b.measurement) = .lt at h
  cases hdevice : compare a.device b.device with
  | lt | eq => rfl
  | gt => simp [hdevice] at h

namespace Document

variable {d : Document}

/-- The devices of groups are those of their chunks. -/
theorem mem_devices_iff (h : Group.Divided d.groups) {device : String} :
    device ∈ d.groups.map Group.device ↔ device ∈ d.located.map Prod.fst := by
  simp only [located, List.mem_map, List.mem_flatMap, Group.located]
  constructor
  · rintro ⟨g, hg, rfl⟩
    obtain ⟨placed, hplaced⟩ := List.exists_mem_of_ne_nil _ (h.nonempty g hg)
    exact ⟨_, ⟨g, hg, placed, hplaced, rfl⟩, rfl⟩
  · rintro ⟨-, ⟨g, hg, placed, -, rfl⟩, rfl⟩
    exact ⟨g, hg, rfl⟩

/-- If the devices of chunks never descend, those of the groups ascend. -/
theorem ascends_devices (h : Group.Divided d.groups)
    (hchunks : d.located.Pairwise fun a b => (compare a.1 b.1).isLE) :
    (d.groups.map Group.device).Pairwise fun a b => compare a b = .lt := by
  have : Trans (fun a b : String => compare a b = .lt) (fun a b => compare a b = .lt)
      (fun a b => compare a b = .lt) := ⟨Std.TransCmp.lt_trans⟩
  apply List.IsChain.pairwise
  rw [List.isChain_map, List.isChain_iff_getElem]
  intro i hnext
  have hi := Nat.lt_of_succ_lt hnext
  have hne := List.isChain_iff_getElem.1 h.changes i hnext
  -- Both groups have chunks, whose devices do not descend.
  obtain ⟨first, hfirst⟩ := List.exists_mem_of_ne_nil _ (h.nonempty _ (List.getElem_mem hi))
  obtain ⟨second, hsecond⟩ := List.exists_mem_of_ne_nil _ (h.nonempty _ (List.getElem_mem hnext))
  have hle := List.pairwise_iff_getElem.1 (List.pairwise_flatMap.1 hchunks).2 i (i + 1) hi hnext
    (Nat.lt_succ_self i) _ (List.mem_map_of_mem hfirst) _ (List.mem_map_of_mem hsecond)
  exact compare_lt_of_ne hle hne

/-- The chunks of a file stand in groups of their devices: the footer lists every chunk of a group,
and only for series of the device. -/
structure Grouped (d : Document) : Prop extends Group.Divided d.groups where
  listed : ∀ g ∈ d.groups, ∀ placed ∈ g.chunks,
    ∃ entry ∈ d.footer.entries, entry.2.offset.toNat = placed.offset
  own : ∀ g ∈ d.groups, ∀ placed ∈ g.chunks, ∀ entry ∈ d.footer.entries,
    entry.2.offset.toNat = placed.offset → entry.1.device = g.device

end Document

section

variable [Compressor] {runs new : List Run}

namespace Run

/-- The front of a file that some runs make. -/
def front (runs : List Run) : Bytes :=
  Frame.head ++ BodyItem.writeAll (layout none runs)

/-- What further runs add to the front of a file. -/
def addition (runs new : List Run) : Bytes :=
  BodyItem.writeAll (layout (lastDevice none runs) new)

/-- Further runs are added behind the front of those that are there. -/
theorem front_append (runs new : List Run) :
    front (runs ++ new) = front runs ++ addition runs new := by
  rw [front, layout_append, BodyItem.writeAll_append, ← List.append_assoc]
  rfl

/-- No two runs stand at the same place. -/
theorem eq_of_place_eq {placed other : Nat × Run} (hp : placed ∈ inFile runs)
    (ho : other ∈ inFile runs) (h : placed.1 = other.1) : placed = other := by
  have hascends := place_ascends none Frame.headSize runs
  have hfind := Document.find?_of_ascends hascends hp
  rw [h, Document.find?_of_ascends hascends ho] at hfind
  exact (Option.some.inj hfind).symm

/-- Every run has a place. -/
theorem exists_of_mem {run : Run} (hr : run ∈ runs) :
    ∃ placed ∈ inFile runs, placed.2 = run := by
  rw [← map_inFile runs] at hr
  exact List.mem_map.1 hr

/-- The series that have points are those of the runs. -/
theorem pointsOf_ne_nil_iff {key : SeriesKey} :
    pointsOf key runs ≠ [] ↔ ∃ run ∈ runs, run.key = key := by
  rw [pointsOf, Ne, List.flatMap_eq_nil_iff]
  constructor
  · intro h
    by_contra hnone
    apply h
    intro run hr
    obtain ⟨hr, hkey⟩ := List.mem_filter.1 hr
    exact absurd ⟨run, hr, of_decide_eq_true hkey⟩ hnone
  · rintro ⟨run, hr, hkey⟩ hnil
    exact run.points_ne_nil (hnil run (List.mem_filter.2 ⟨hr, decide_eq_true hkey⟩))

end Run

variable [Logarithm] {registry : Registry} {rateBits : UInt64} {index : SeriesTable SeriesEntry}

namespace Sealed

/-- The groups of a sealed file are divided. -/
theorem divided (registry : Registry) (rateBits : UInt64) (runs : List Run)
    (index : SeriesTable SeriesEntry) :
    Group.Divided (sealedImage registry rateBits runs index).document.groups :=
  (Group.Divided.nil.gather rfl).inOrder

/-- In a group there are chunks of runs of its device. -/
theorem exists_placed {g : Group}
    (hg : g ∈ (sealedImage registry rateBits runs index).document.groups) {chunk : PlacedChunk}
    (hc : chunk ∈ g.chunks) :
    ∃ placed ∈ Run.inFile runs, placed.2.key.device = g.device ∧ placed.1 = chunk.offset := by
  have hmem : (g.device, chunk) ∈ (sealedImage registry rateBits runs index).document.located :=
    List.mem_flatMap.2 ⟨g, hg, List.mem_map_of_mem hc⟩
  rw [located_sealedImage] at hmem
  obtain ⟨placed, hp, heq⟩ := List.mem_map.1 hmem
  obtain ⟨hdevice, rfl⟩ := Prod.mk.inj heq
  exact ⟨placed, hp, hdevice, rfl⟩

/-- The chunks of a sealed file stand in groups of their devices. -/
theorem grouped (h : Sealed registry rateBits runs index) :
    (sealedImage registry rateBits runs index).document.Grouped where
  toDivided := divided registry rateBits runs index
  listed g hg chunk hc := by
    obtain ⟨placed, hp, -, hoffset⟩ := exists_placed hg hc
    have hentry : (placed.2.key, Run.entry placed) ∈
        (sealedImage registry rateBits runs index).document.footer.entries :=
      h.indexed.perm_entries.mem_iff.2 (List.mem_map_of_mem hp)
    refine ⟨_, hentry, ?_⟩
    rw [← hoffset]
    exact UInt64.toNat_ofNat_of_lt' (h.place_lt hp)
  own g hg chunk hc entry hentry heq := by
    obtain ⟨placed, hp, hdevice, hoffset⟩ := exists_placed hg hc
    obtain ⟨other, ho, rfl⟩ := List.mem_map.1 (h.indexed.perm_entries.mem_iff.1 hentry)
    -- An entry leads to one place, and one run stands there.
    have hsame : other.1 = placed.1 := by
      rw [hoffset, ← heq]
      exact (UInt64.toNat_ofNat_of_lt' (h.place_lt ho)).symm
    rw [Run.eq_of_place_eq ho hp hsame]
    exact hdevice

/-- There are groups of the devices that have points. -/
theorem mem_devices_iff {device : String} :
    device ∈ (sealedImage registry rateBits runs index).document.groups.map Group.device ↔
      ∃ measurement, Run.pointsOf ⟨device, measurement⟩ runs ≠ [] := by
  rw [Document.mem_devices_iff (divided registry rateBits runs index), located_sealedImage]
  simp only [Run.pointsOf_ne_nil_iff, List.mem_map]
  constructor
  · rintro ⟨-, ⟨placed, hp, rfl⟩, rfl⟩
    exact ⟨placed.2.key.measurement, placed.2, Run.mem_of_mem_inFile hp, rfl⟩
  · rintro ⟨measurement, run, hr, hkey⟩
    obtain ⟨placed, hp, rfl⟩ := Run.exists_of_mem hr
    exact ⟨_, ⟨placed, hp, rfl⟩, congrArg SeriesKey.device hkey⟩

/-- If the runs are of ascending series, the groups are of ascending devices. -/
theorem ascends_devices (h : (runs.map Run.key).Pairwise fun a b => compare a b = .lt) :
    ((sealedImage registry rateBits runs index).document.groups.map Group.device).Pairwise
      fun a b => compare a b = .lt := by
  apply Document.ascends_devices (divided registry rateBits runs index)
  rw [located_sealedImage, List.pairwise_map]
  rw [← Run.map_inFile runs, List.map_map] at h
  exact (List.pairwise_map.1 h).imp SeriesKey.isLE_device

end Sealed

namespace Writer

variable {σ : Type} [Sink σ] {o : Opening σ} {ledger : Ledger} {w w' : Writer σ}

/-! ### What is left to write -/

/-- Runs of what a writer buffers: one for every buffer that has points, with all of them, in the
order of the series. -/
structure Empties (w : Writer σ) (new : List Run) : Prop where
  ascends : (new.map Run.key).Pairwise fun a b => compare a b = .lt
  mem_iff : ∀ key, key ∈ new.map Run.key ↔ w.Filled key
  points : ∀ run ∈ new, ∃ b, w.buffers.find? run.key = some b ∧ run.points = b.points

/-- A flush that succeeds after some runs writes what is buffered, and a second one nothing more. -/
structure FlushAdds (runs new : List Run) (w w' : Writer σ) : Prop where
  empties : w.Empties new
  added : Sink.accepted w'.output.sink = Sink.accepted w.output.sink ++ Run.addition runs new
  again : flush w' = .ok () w'

/-- Closing after some runs writes what is buffered, the footer and the tail. All chunks stand then
in groups of their devices, and every device with points has a group: just one, in order, if no
chunk was written before. -/
structure CloseAdds (runs new : List Run) (ledger : Ledger) (d : Document) (w w' : Writer σ) :
    Prop where
  empties : w.Empties new
  added : Sink.accepted w'.output.sink = Sink.accepted w.output.sink ++
    (Run.addition runs new ++ d.footer.write ++ d.tail.write)
  parsed : Document.parse (Run.front runs ++
    (Run.addition runs new ++ d.footer.write ++ d.tail.write)) = .ok d
  grouped : d.Grouped
  devices : ∀ device, device ∈ d.groups.map Group.device ↔
    ∃ measurement, ledger.points ⟨device, measurement⟩ ≠ []
  ascends : w.chunksFlushed = 0 →
    (d.groups.map Group.device).Pairwise fun a b => compare a b = .lt

omit [Sink σ] [Logarithm] in
/-- A flush makes the runs of what was buffered. -/
theorem Flushes.empties (h : Flushes w new w') : w.Empties new where
  ascends := by
    rw [h.keys_eq]
    exact w.ascends_pending
  mem_iff key := by rw [h.keys_eq, mem_pending_iff]
  points run hr := by
    obtain ⟨b, hb, -, hpoints⟩ := h.drains.exists_buffer hr
    exact ⟨b, hb, hpoints⟩

omit [Logarithm] in
/-- If nothing is buffered, there is nothing to flush. -/
theorem flushAll_idle (h : ∀ key, ¬w.Filled key) : flushAll w = .ok () w := by
  have hpending : w.pending = [] :=
    List.eq_nil_iff_forall_not_mem.2 fun key hkey => h key (mem_pending_iff.1 hkey)
  show w.pending.forM flushSeries w = .ok () w
  rw [hpending]
  rfl

namespace Holds

omit [Logarithm] in
/-- What the sink took is the front that the runs make. -/
theorem accepted_eq {state : WriterState} (h : Holds o state runs ledger w) :
    Sink.accepted w.output.sink = Sink.accepted o.sink ++ Run.front runs :=
  h.wrote.took

omit [Logarithm] in
/-- A flush adds what is buffered, and is not needed a second time. -/
theorem flush_adds (h : Holds o .active runs ledger w) :
    Ends flush w (fun _ w' => ∃ new, FlushAdds runs new w w') (Lost o) := by
  have hall : Ends flush w _ (Lost o) := Ends.after (ensureOpen_ok h.state_eq) h.flushAll_writes
  refine hall.mono (fun _ w' h' => ?_) fun _ h' => h'
  obtain ⟨new, hflushes, h'⟩ := h'
  refine ⟨new, hflushes.empties, ?_, ?_⟩
  · rw [h'.accepted_eq, h.accepted_eq, Run.front_append, List.append_assoc]
  · show (ensureOpen >>= fun _ => flushAll) w' = _
    rw [bind_ok (ensureOpen_ok h'.state_eq)]
    exact flushAll_idle hflushes.not_filled

/-- Closing adds what is buffered, the footer and the tail. -/
theorem close_adds (h : Holds o .active runs ledger w) :
    Ends close w (fun _ w' => ∃ new d, CloseAdds runs new ledger d w w') (fun _ => True) := by
  refine h.close_writes.mono (fun _ w' h' => ?_) fun _ _ => trivial
  obtain ⟨-, -, new, w₁, hflushes, hfrom⟩ := h'
  let image := sealedImage o.registry o.options.bloomRateBits (runs ++ new) w₁.index
  -- The file is cut where the runs were before closing.
  have hfile : image.file = Run.front runs ++ (Run.addition runs new ++
      image.document.footer.write ++ image.document.tail.write) := by
    show Run.front (runs ++ new) ++ image.footer.write ++ image.tail.write = _
    rw [Run.front_append]
    simp only [List.append_assoc]
    rfl
  have hempties := hflushes.empties
  refine ⟨new, image.document, { hempties with }, ?_, ?_, hfrom.sealed.grouped, ?_, ?_⟩
  · rw [h.accepted_eq, List.append_assoc, ← hfile]
    exact hfrom.took
  · rw [← hfile]
    exact Image.parse_file hfrom.sealed.sound (Run.startsWithGroup_layout _)
  · intro device
    rw [Sealed.mem_devices_iff]
    simp only [hfrom.holds.points_eq hfrom.empty]
  · intro hnone
    rw [h.tallies.chunks] at hnone
    -- Without runs before, those of the flush are all, and their series ascend.
    obtain rfl := List.eq_nil_of_length_eq_zero hnone
    exact Sealed.ascends_devices hempties.ascends

end Holds

/-! ### Open writers and closed files -/

/-- The file of an open writer is made by some runs. A flush adds one chunk for every buffer that
has points, in the order of the series, and begins a group where the device is another than that of
the chunk before. Closing does the same, and then the groups of the file are those of its
devices. -/
theorem chunks_grouped {sink : σ} {options : Options} {opened : Writer σ} {ops : List Operation}
    (hstart : start sink registry options = .ok opened)
    (hactive : (opened.after ops).state = .active) :
    ∃ runs, Sink.accepted (opened.after ops).output.sink =
        Sink.accepted sink ++ Run.front runs ∧
      (opened.after ops).chunksFlushed = runs.length ∧
      (∀ flushed, flush (opened.after ops) = .ok () flushed →
        ∃ new, FlushAdds runs new (opened.after ops) flushed) ∧
      ∀ closed, close (opened.after ops) = .ok () closed →
        ∃ new d, CloseAdds runs new ((Ledger.new registry).performAll ops).2 d
          (opened.after ops) closed := by
  obtain ⟨-, runs, h⟩ := (start_ok hstart).performAll hactive
  refine ⟨runs, h.accepted_eq, h.tallies.chunks, ?_, ?_⟩
  · intro flushed hflush
    exact h.flush_adds.of_ok hflush
  · intro closed hclose
    exact h.close_adds.of_ok hclose

end Writer

end

section

attribute [local instance] sampleLogarithm

/-- Points of two devices, of which the second is written first. -/
def sampleDevices : List Operation := [
  .write ⟨"root.b", "v"⟩ (-5) (.double 0x400921FB54442D18),
  .write ⟨"root.a", "t"⟩ 1 (.int32 7),
  .write ⟨"root.a", "n"⟩ 1 (.text "TsFile")]

/-- Nothing of the sample is written before it is flushed. -/
theorem sample_devices :
    Writer.closes MemorySink.unlimited sampleRegistry sampleOptions sampleDevices = true ∧
      (Writer.start MemorySink.unlimited sampleRegistry sampleOptions).toOption.all
        (fun w => (w.after sampleDevices).chunksFlushed = 0 ∧
          ((w.after sampleDevices).perform .flush).1 = .ok ()) = true := by
  decide +kernel

/-- The devices are in order in the file, although the second was written first. -/
theorem chunks_grouped_sample : ∃ opened flushed closed : Writer MemorySink,
    Writer.start MemorySink.unlimited sampleRegistry sampleOptions = .ok opened ∧
      (opened.after sampleDevices).state = .active ∧
      Writer.flush (opened.after sampleDevices) = .ok () flushed ∧
      Writer.close (opened.after sampleDevices) = .ok () closed ∧
      ∃ runs new new' d, Writer.FlushAdds runs new (opened.after sampleDevices) flushed ∧
        Writer.CloseAdds runs new' ((Ledger.new sampleRegistry).performAll sampleDevices).2 d
          (opened.after sampleDevices) closed ∧
        (d.groups.map Group.device).Pairwise fun a b => compare a b = .lt := by
  obtain ⟨hcloses, hsample⟩ := sample_devices
  obtain ⟨opened, closed, hstart, hclose⟩ := Writer.exists_of_closes hcloses
  rw [hstart] at hsample
  obtain ⟨hnone, hanswer⟩ := of_decide_eq_true hsample
  have hactive := Writer.active_of_close hclose
  obtain ⟨runs, -, -, hflushes, hcloses⟩ := Writer.chunks_grouped hstart hactive
  cases hflush : Writer.flush (opened.after sampleDevices) with
  | error fault flushed =>
    have haction : Writer.action .flush (opened.after sampleDevices) = .error fault flushed :=
      hflush
    rw [Writer.perform_error haction] at hanswer
    cases hanswer
  | ok done flushed =>
    obtain ⟨new, hadds⟩ := hflushes flushed hflush
    obtain ⟨new', d, hadds'⟩ := hcloses closed hclose
    exact ⟨opened, flushed, closed, hstart, hactive, hflush, hclose, runs, new, new', d, hadds,
      hadds', hadds'.ascends hnone⟩

end

end SeriesFile
