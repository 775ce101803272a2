import SeriesFile.Proofs.Index

/-!
# Sealed files

A file is sealed with the footer that its index makes. If the length of the footer fits the tail,
then everything in the file fits: the footer takes up some bytes for every name and for every chunk,
so names are short and chunks few, and positions stay below 2⁶⁴ (`Sealed.place_lt`).

Reading a sealed file gives back the footer and every chunk at its place (`Sealed.parse`). Through
the footer the points of every series are found (`Sealed.points?_eq`), and footer and body speak of
the same chunks (`Indexed.perm_entries`).
-/

namespace SeriesFile

variable [Compressor]

/-- There is a point in every run. -/
theorem Run.points_ne_nil (run : Run) : run.points ≠ [] := by
  obtain ⟨htimes, -, -⟩ := Statistics.ofColumns?_eq_some run.statistics_eq
  have hpos := List.length_pos_iff.2 htimes
  apply List.ne_nil_of_length_pos
  rwa [points, Page.length_join run.length_column]

/-- The chunks of a document are those of the runs that are located in it. -/
theorem Document.chunks_of_located {d : Document} {runs : List Run}
    (h : d.located = (Run.inFile runs).map fun placed =>
      (placed.2.key.device, ⟨placed.1, placed.2.chunk⟩)) :
    d.chunks = (Run.inFile runs).map fun placed => ⟨placed.1, placed.2.chunk⟩ := by
  rw [← d.map_located, h, List.map_map]
  rfl

/-- A series has no points just if no run is of it, and then it has no entries. -/
theorem Run.pointsOf_eq_nil_iff {key : SeriesKey} {runs : List Run} :
    pointsOf key runs = [] ↔ entriesOf key runs = [] := by
  have hentries : entriesOf key runs = [] ↔ (runs.filter fun run => run.key = key) = [] := by
    conv => rhs; rw [← map_inFile runs, List.filter_map]
    rw [entriesOf, List.map_eq_nil_iff, List.map_eq_nil_iff]
    rfl
  rw [hentries, pointsOf, List.flatMap_eq_nil_iff]
  constructor
  · intro h
    refine List.eq_nil_iff_forall_not_mem.2 fun run hr => run.points_ne_nil (h run hr)
  · intro h run hr
    rw [h] at hr
    contradiction

variable [Logarithm]

/-- The file of runs, of which an index was kept. -/
def sealedImage (registry : Registry) (rateBits : UInt64) (runs : List Run)
    (index : SeriesTable SeriesEntry) : Image :=
  ⟨Run.layout none runs, Footer.build registry index.values rateBits⟩

/-- The chunks of a sealed file are those of its runs, each in the group of its device. -/
theorem located_sealedImage (registry : Registry) (rateBits : UInt64) (runs : List Run)
    (index : SeriesTable SeriesEntry) :
    (sealedImage registry rateBits runs index).document.located =
      (Run.inFile runs).map fun placed =>
        (placed.2.key.device, ⟨placed.1, placed.2.chunk⟩) := by
  have hbegun (name : String) (hn : name ∈ (none : Option String)) : name = "" :=
    (Option.not_mem_none name hn).elim
  exact (Image.located_document (Run.startsWithGroup_layout runs)).trans
    (Run.locate_layout hbegun _ _)

/-- The footer of a file of runs lists them and fits the tail. -/
structure Sealed (registry : Registry) (rateBits : UInt64) (runs : List Run)
    (index : SeriesTable SeriesEntry) : Prop where
  indexed : Indexed registry runs index
  footerLength : (Footer.build registry index.values rateBits).write.length < 2 ^ 32

namespace Sealed

variable {registry : Registry} {rateBits : UInt64} {runs : List Run}
  {index : SeriesTable SeriesEntry}

section

variable (h : Sealed registry rateBits runs index)
include h

/-- An entry takes 32 bytes of the footer at least, so there are fewer than 2 ^ 27 runs. -/
theorem mul_length_runs_lt : 32 * runs.length < 2 ^ 32 := by
  have hlength := h.indexed.perm_entries.length_eq
  rw [List.length_map, Run.length_inFile] at hlength
  have hbytes : 32 * (index.values.flatMap fun e => e.chunks.map fun c => (e.key, c)).length ≤
      (index.values.flatMap SeriesEntry.write).length := by
    induction index.values with
    | nil => exact Nat.zero_le _
    | cons e es ih =>
      have hfirst := e.mul_length_chunks_le
      rw [List.flatMap_cons, List.flatMap_cons, List.length_append, List.length_append,
        List.length_map]
      omega
  have hfooter := h.footerLength
  simp only [Footer.write, List.length_append] at hfooter
  change _ + (index.values.flatMap SeriesEntry.write).length + _ < _ at hfooter
  omega

/-- The names of a run are in the footer, so they are shorter than it. -/
theorem name_lt {run : Run} (hr : run ∈ runs) : run.key.device.utf8ByteSize < 2 ^ 32 ∧
    run.key.measurement.utf8ByteSize < 2 ^ 32 := by
  refine Registry.name_lt_of_length (r := registry) ?_ ?_
  · have hfooter := h.footerLength
    simp only [Footer.write, List.length_append] at hfooter
    change _ + registry.write.length + _ + _ + _ < _ at hfooter
    omega
  · exact SeriesTable.mem_keys_iff.2 ⟨_, h.indexed.schemas run hr⟩

/-- Positions of chunks fit 64 bits. -/
theorem place_lt {placed : Nat × Run} (hp : placed ∈ Run.inFile runs) : placed.1 < 2 ^ 64 := by
  -- A place is within the body, and the body is short for runs with such names and of such a
  -- number.
  have hbounds := (Run.place_bounds hp).2
  have hbody := @Run.length_layout_le _ none runs fun run hr => h.name_lt hr
  have hruns := h.mul_length_runs_lt
  have : Frame.headSize = 7 := rfl
  omega

/-- Everything in a sealed file fits its field. -/
theorem sound : (sealedImage registry rateBits runs index).Sound where
  items := Run.sound_layout fun run hr =>
    ⟨Nat.lt_trans (h.name_lt hr).1 (by decide), Nat.lt_trans (h.name_lt hr).2 (by decide)⟩
  footer := h.indexed.sound_footer rateBits
  footerLength := h.footerLength

/-- A sealed file can be read: its footer, and every chunk at its place and in the group of its
device. -/
theorem parse : ∃ d, Document.parse (sealedImage registry rateBits runs index).file = .ok d ∧
    d.footer = Footer.build registry index.values rateBits ∧
    d.located = (Run.inFile runs).map fun placed =>
      (placed.2.key.device, ⟨placed.1, placed.2.chunk⟩) :=
  ⟨_, Image.parse_file h.sound (Run.startsWithGroup_layout runs), rfl,
    located_sealedImage registry rateBits runs index⟩

/-- The series of the footer are those that have points. -/
theorem keys_series : index.values.map SeriesEntry.key =
    registry.keys.filter fun key => !(Run.pointsOf key runs).isEmpty := by
  rw [h.indexed.map_key_values]
  apply SeriesTable.keys_eq_filter
  intro key
  rw [Bool.not_eq_true', ← Bool.not_eq_true, List.isEmpty_iff, Run.pointsOf_eq_nil_iff]
  constructor
  · intro hkey
    obtain ⟨e, he⟩ := SeriesTable.mem_keys_iff.1 hkey
    have hne : Run.entriesOf key runs ≠ [] := by
      intro hnil
      rw [h.indexed.absent key hnil] at he
      contradiction
    obtain ⟨c, hc⟩ := List.exists_mem_of_ne_nil _ hne
    -- A run of the series was registered with it.
    obtain ⟨placed, hp, -⟩ := List.mem_map.1 hc
    obtain ⟨hp, hplaced⟩ := List.mem_filter.1 hp
    have hschema := h.indexed.schemas placed.2 (Run.mem_of_mem_inFile hp)
    rw [of_decide_eq_true hplaced] at hschema
    exact ⟨SeriesTable.mem_keys_iff.2 ⟨_, hschema⟩, hne⟩
  · rintro ⟨-, hne⟩
    obtain ⟨e, he, -⟩ := h.indexed.present key hne
    exact SeriesTable.mem_keys_iff.2 ⟨e, he⟩

end

/-- A series with points is found in the footer, with the entries of its chunks. -/
theorem find?_eq_some (h : Sealed registry rateBits runs index) {key : SeriesKey}
    (hkey : Run.pointsOf key runs ≠ []) :
    ∃ e, (Footer.build registry index.values rateBits).find? key = some e ∧
      e.chunks = Run.entriesOf key runs := by
  obtain ⟨e, he, hlists⟩ := h.indexed.present key fun hnil =>
    hkey (Run.pointsOf_eq_nil_iff.2 hnil)
  have hmem : e ∈ index.values := List.mem_map_of_mem (SeriesTable.find?_eq_some_iff.1 he)
  refine ⟨e, ?_, hlists.chunks_eq⟩
  rw [← hlists.key_eq]
  exact Footer.find?_of_mem h.indexed.ascends_values hmem
    (Footer.mayContain_build registry index.values rateBits hmem)

/-- A series without points is not found. -/
theorem find?_eq_none (h : Sealed registry rateBits runs index) {key : SeriesKey}
    (hkey : Run.pointsOf key runs = []) :
    (Footer.build registry index.values rateBits).find? key = none := by
  apply Footer.find?_of_not_mem
  intro e he heq
  have hmem : e.key ∈ index.values.map SeriesEntry.key := List.mem_map_of_mem he
  rw [h.keys_series, heq] at hmem
  simp [hkey] at hmem

/-- Through the footer the points of a series are found. -/
theorem points?_eq (h : Sealed registry rateBits runs index) {d : Document}
    (hfooter : d.footer = Footer.build registry index.values rateBits)
    (hlocated : d.located = (Run.inFile runs).map fun placed =>
      (placed.2.key.device, ⟨placed.1, placed.2.chunk⟩)) {key : SeriesKey}
    (hkey : Run.pointsOf key runs ≠ []) : d.points? key = some (Run.pointsOf key runs) := by
  obtain ⟨e, hfind, hentries⟩ := h.find?_eq_some hkey
  rw [Document.points?, hfooter, hfind, Option.bind_eq_bind, Option.bind_some, hentries]
  exact Document.pointsOf_entriesOf (Document.chunks_of_located hlocated)
    (fun _ hp => h.place_lt hp) key

end Sealed

end SeriesFile
