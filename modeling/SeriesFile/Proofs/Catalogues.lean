import Mathlib.Data.List.Induction
import SeriesFile.Proofs.Declarations
import SeriesFile.Series.Catalogue

/-!
# Registries in two levels

A catalogue holds devices with their measurements, and the number of all series beside them. It is
the registry with the same series, device by device (`Registry.catalogue`): whatever is asked of
both, declared to both or read into both gives the same, so that nothing can come between the number
that is kept and the series that there are.

With it everything is known about what declarations make of a catalogue. It is told by those that
were accepted: it has each of their series once, with the schema of its first acceptable
declaration, in the order of the series and not in that of the declarations
(`Catalogue.declareAll_canonical`). So declarations that do not contradict each other may come in
any order, what was written is read back, and a builder that goes from device to device does nothing
else than these declarations.
-/

namespace SeriesFile

/-! ### The order of devices -/

/-- A name is where it is. -/
theorem compare_string_self (name : String) : compare name name = .eq :=
  Std.ReflCmp.compare_self

/-- Series are compared by their devices first. -/
theorem SeriesKey.compare_eq (a b : SeriesKey) :
    compare a b = (compare a.device b.device).then (compare a.measurement b.measurement) := rfl

/-- Where series ascend their devices do not descend. -/
theorem SeriesKey.compare_device_ne_gt {a b : SeriesKey} (h : compare a b = .lt) :
    compare a.device b.device ≠ .gt := by
  rw [compare_eq, Ordering.then_eq_lt] at h
  rcases h with h | ⟨h, -⟩ <;> simp [h]

/-- Of two devices that do not descend and are not the same the first comes before the other. -/
theorem compare_string_eq_lt {a b : String} (hle : compare a b ≠ .gt) (hne : a ≠ b) :
    compare a b = .lt := by
  cases h : compare a b with
  | lt => rfl
  | eq => exact absurd (Std.LawfulEqCmp.eq_of_compare h) hne
  | gt => exact absurd h hle

namespace CatalogueBuilder

variable {b : CatalogueBuilder}

/-- A builder without a fault builds what it holds. -/
theorem build_eq_ok_iff {c : Catalogue} : b.build = .ok c ↔ b = ⟨c, none⟩ := by
  obtain ⟨catalogue, fault?⟩ := b
  cases fault? <;> simp [build]

/-- A builder that has met a fault builds nothing, whatever it was asked for since. -/
theorem build_eq_error_iff {fault : Fault} : b.build = .error fault ↔ b.fault? = some fault := by
  obtain ⟨catalogue, fault?⟩ := b
  cases fault? <;> simp [build]

end CatalogueBuilder

namespace Catalogue

/-- The answer to a declaration and the catalogue after it, which is the same as before if the
declaration is refused. -/
def declare (c : Catalogue) (d : Declaration) : Except Fault Unit × Catalogue :=
  match if d.checked then c.define d.key d.schema else c.add d.key d.schema with
  | .ok c' => (.ok (), c')
  | .error fault => (.error fault, c)

/-- The answers to declarations, one after another, and the catalogue after them. -/
def declareAll (c : Catalogue) : List Declaration → List (Except Fault Unit) × Catalogue
  | [] => ([], c)
  | d :: ds =>
    let (answer, c) := c.declare d
    let (answers, c) := declareAll c ds
    (answer :: answers, c)

/-- The lengths of the names fit the numbers that are written before them, as those of all strings
that fit a memory do. -/
def NamesFit (c : Catalogue) : Prop :=
  ∀ entry ∈ c.entries, entry.1.device.utf8ByteSize < 2 ^ 64 ∧
    entry.1.measurement.utf8ByteSize < 2 ^ 64

end Catalogue

namespace Registry

/-! ### Series by devices -/

/-- Puts a series in front of others that are grouped by devices. -/
def consEntry (key : SeriesKey) (schema : Schema) :
    List (String × List (String × Schema)) → List (String × List (String × Schema))
  | [] => [(key.device, [(key.measurement, schema)])]
  | (device, measurements) :: others =>
    if key.device = device then (device, (key.measurement, schema) :: measurements) :: others
    else (key.device, [(key.measurement, schema)]) :: (device, measurements) :: others

/-- Series in order, grouped by devices. -/
def byDevice : List (SeriesKey × Schema) → List (String × List (String × Schema))
  | [] => []
  | (key, schema) :: entries => consEntry key schema (byDevice entries)

/-- The registry device by device. -/
def catalogue (r : Registry) : Catalogue := ⟨byDevice r.entries, r.size⟩

variable {key other : SeriesKey} {schema schema' : Schema}
  {devices : List (String × List (String × Schema))}

/-- The first series stands first on the first device. -/
theorem byDevice_cons (entry : SeriesKey × Schema) (entries : List (SeriesKey × Schema)) :
    ∃ measurements others, byDevice (entry :: entries) =
      (entry.1.device, (entry.1.measurement, entry.2) :: measurements) :: others := by
  obtain ⟨key, schema⟩ := entry
  rw [byDevice]
  cases byDevice entries with
  | nil => exact ⟨[], [], rfl⟩
  | cons d others =>
    obtain ⟨device, measurements⟩ := d
    rw [consEntry]
    split
    · rename_i h
      subst h
      exact ⟨measurements, others, rfl⟩
    · exact ⟨[], _, rfl⟩

/-- A series that comes after the first one is placed behind it. -/
theorem place_consEntry (hgt : compare key other = .gt)
    (hle : ∀ d ∈ devices.head?, compare other.device d.1 ≠ .gt) :
    Catalogue.place key schema (consEntry other schema' devices) =
      consEntry other schema' (Catalogue.place key schema devices) := by
  -- Either its device comes later, or it is the same and only the measurement does.
  have hcases : compare key.device other.device = .gt ∨
      key.device = other.device ∧ compare key.measurement other.measurement = .gt := by
    rw [SeriesKey.compare_eq, Ordering.then_eq_gt, Std.compare_eq_iff_eq] at hgt
    exact hgt
  cases devices with
  | nil =>
    rcases hcases with hd | ⟨hd, hm⟩
    · have hne : other.device ≠ key.device := fun h => by
        rw [h, compare_string_self] at hd
        contradiction
      simp [Catalogue.place, consEntry, alter, hd, hne]
    · simp [Catalogue.place, consEntry, alter, hd, hm]
  | cons d devices =>
    obtain ⟨device, measurements⟩ := d
    have hle : compare other.device device ≠ .gt := hle _ rfl
    -- The device of `other` is the first one, or comes before it.
    by_cases hsame : other.device = device
    · subst hsame
      rcases hcases with hd | ⟨hd, hm⟩
      · simp [Catalogue.place, consEntry, alter, hd]
      · simp [Catalogue.place, consEntry, alter, hd, hm]
    · have hlt : compare other.device device = .lt := compare_string_eq_lt hle hsame
      rcases hcases with hd | ⟨hd, hm⟩
      · have hne : other.device ≠ key.device := fun h => by
          rw [h, compare_string_self] at hd
          contradiction
        cases h : compare key.device device <;>
          simp [Catalogue.place, consEntry, alter, hd, hne, hsame, h]
      · rw [← hd] at hlt hsame
        simp [Catalogue.place, consEntry, alter, ← hd, hlt, hsame, hm]

/-- A new series is placed on its device where it is placed among all series. -/
theorem place_byDevice {entries : List (SeriesKey × Schema)}
    (ascending : entries.Pairwise fun a b => compare a.1 b.1 = .lt)
    (hnew : ∀ entry ∈ entries, key ≠ entry.1) :
    Catalogue.place key schema (byDevice entries) =
      byDevice (SeriesTable.place key schema entries) := by
  induction entries with
  | nil => rfl
  | cons entry entries ih =>
    obtain ⟨first, ascends⟩ := List.pairwise_cons.1 ascending
    rw [SeriesTable.place]
    cases hcompare : compare key entry.1 with
    | lt =>
      -- The new series is the first of all, on the first device or on one of its own before it.
      obtain ⟨measurements, others, heq⟩ := byDevice_cons entry entries
      dsimp only
      rw [heq, byDevice, heq]
      rw [SeriesKey.compare_eq, Ordering.then_eq_lt, Std.compare_eq_iff_eq] at hcompare
      rcases hcompare with hd | ⟨hd, hm⟩
      · have hne : key.device ≠ entry.1.device := fun h => by
          rw [h, compare_string_self] at hd
          contradiction
        simp [Catalogue.place, consEntry, alter, hd, hne]
      · simp [Catalogue.place, consEntry, alter, hd, hm]
    | eq => exact absurd (Std.LawfulEqCmp.eq_of_compare hcompare) (hnew entry (.head _))
    | gt =>
      -- The devices ascend as the series do, so the first one keeps its place.
      dsimp only
      rw [byDevice, byDevice, ← ih ascends fun other ho => hnew other (.tail _ ho)]
      refine place_consEntry hcompare fun d hd => ?_
      cases entries with
      | nil => contradiction
      | cons next entries =>
        obtain ⟨measurements, others, heq⟩ := byDevice_cons next entries
        rw [heq] at hd
        obtain rfl := Option.some.inj hd
        exact SeriesKey.compare_device_ne_gt (first next (.head _))

/-- However the series are grouped, in order they are the same. -/
theorem entries_consEntry (n : Nat) :
    Catalogue.entries ⟨consEntry key schema devices, n⟩ =
      (key, schema) :: Catalogue.entries ⟨devices, n⟩ := by
  cases devices with
  | nil => rfl
  | cons d devices =>
    obtain ⟨device, measurements⟩ := d
    rw [consEntry]
    split
    · rename_i h
      subst h
      rfl
    · rfl

/-- So grouping a list and listing the groups leads back: by induction, one series at a time. -/
theorem entries_byDevice (entries : List (SeriesKey × Schema)) (n : Nat) :
    Catalogue.entries ⟨byDevice entries, n⟩ = entries := by
  induction entries with
  | nil => rfl
  | cons entry entries ih => rw [byDevice, entries_consEntry, ih]

/-- A device that is not the next one does not come again. -/
theorem device_ne_of_head {key : SeriesKey} {entry : SeriesKey × Schema}
    {entries : List (SeriesKey × Schema)}
    (ascending : (entry :: entries).Pairwise fun a b => compare a.1 b.1 = .lt)
    (first : compare key entry.1 = .lt) (hne : key.device ≠ entry.1.device) :
    ∀ other ∈ entry :: entries, other.1.device ≠ key.device := by
  intro other ho heq
  have hlt : compare key.device entry.1.device = .lt :=
    compare_string_eq_lt (SeriesKey.compare_device_ne_gt first) hne
  rcases List.mem_cons.1 ho with rfl | ho
  · exact hne heq.symm
  · have hle := SeriesKey.compare_device_ne_gt ((List.pairwise_cons.1 ascending).1 other ho)
    rw [heq] at hle
    exact hle (Std.OrientedCmp.gt_iff_lt.2 hlt)

/-- A series that is put in front leaves the other devices as they were. -/
theorem lookup_consEntry_of_ne {device : String} (h : device ≠ key.device) :
    (consEntry key schema devices).lookup device = devices.lookup device := by
  have hne : (device == key.device) = false := beq_false_of_ne h
  cases devices with
  | nil => simp [consEntry, List.lookup_cons, hne]
  | cons d devices =>
    obtain ⟨other, measurements⟩ := d
    rw [consEntry]
    split
    · rename_i heq
      subst heq
      simp [List.lookup_cons, hne]
    · simp [List.lookup_cons, hne]

/-- A device that no series is on is not there. -/
theorem lookup_byDevice_eq_none {device : String} {entries : List (SeriesKey × Schema)}
    (h : ∀ entry ∈ entries, entry.1.device ≠ device) : (byDevice entries).lookup device = none := by
  induction entries with
  | nil => rfl
  | cons entry entries ih =>
    rw [byDevice, lookup_consEntry_of_ne (h entry (.head _)).symm]
    exact ih fun other ho => h other (.tail _ ho)

/-- A series that is put in front is found, and the others as before. This takes that its device, if
it does not stand first, is not further back: there it would be hidden. -/
theorem find?_consEntry (n : Nat) (other : SeriesKey)
    (h : ∀ d ∈ devices.head?, key.device ≠ d.1 → devices.lookup key.device = none) :
    Catalogue.find? ⟨consEntry key schema devices, n⟩ other =
      if key = other then some schema else Catalogue.find? ⟨devices, n⟩ other := by
  by_cases hd : other.device = key.device
  · have hkey : key = other ↔ other.measurement = key.measurement := by
      obtain ⟨device, measurement⟩ := key
      obtain ⟨device', measurement'⟩ := other
      rw [SeriesKey.mk.injEq, eq_comm, and_iff_right hd, eq_comm]
    -- On the device itself the measurement decides.
    have hlookup (measurements : List (String × Schema)) :
        ((key.measurement, schema) :: measurements).lookup other.measurement =
          if key = other then some schema else measurements.lookup other.measurement := by
      rw [List.lookup_cons]
      by_cases hm : other.measurement = key.measurement
      · rw [if_pos (hkey.2 hm), hm, beq_self_eq_true]
      · rw [if_neg (mt hkey.1 hm), beq_false_of_ne hm]
    cases devices with
    | nil => simp [Catalogue.find?, consEntry, hd, hlookup]
    | cons d devices =>
      obtain ⟨device, measurements⟩ := d
      rw [consEntry]
      split
      · rename_i heq
        subst heq
        simp [Catalogue.find?, hd, hlookup]
      · rename_i hne
        simp [Catalogue.find?, hd, hlookup, h _ rfl hne]
  · have hkey : key ≠ other := fun heq => hd (heq ▸ rfl)
    rw [if_neg hkey, Catalogue.find?, lookup_consEntry_of_ne hd]
    rfl

/-- Series in order are found by device and measurement as they are found in one list. -/
theorem find?_byDevice {entries : List (SeriesKey × Schema)}
    (ascending : entries.Pairwise fun a b => compare a.1 b.1 = .lt) (n : Nat) (key : SeriesKey) :
    Catalogue.find? ⟨byDevice entries, n⟩ key =
      (entries.find? fun entry => entry.1 = key).map Prod.snd := by
  induction entries with
  | nil => rfl
  | cons entry entries ih =>
    obtain ⟨first, ascends⟩ := List.pairwise_cons.1 ascending
    rw [byDevice, find?_consEntry, ih ascends, List.find?_cons]
    · split
      · rename_i h
        simp [h]
      · rename_i h
        simp [h]
    · -- The device of the first series does not come again behind another one.
      intro d hd hne
      cases entries with
      | nil => rfl
      | cons next entries =>
        obtain ⟨measurements, others, heq⟩ := byDevice_cons next entries
        rw [heq] at hd
        obtain rfl := Option.some.inj hd
        exact lookup_byDevice_eq_none (device_ne_of_head ascends (first next (.head _)) hne)

/-! ### The registry in two levels -/

variable (r : Registry)

/-- In two levels a registry lists the same series in the same order. -/
theorem entries_catalogue : r.catalogue.entries = r.entries :=
  entries_byDevice r.entries r.size

/-- It finds the same schemas. -/
theorem find?_catalogue (key : SeriesKey) : r.catalogue.find? key = r.find? key :=
  find?_byDevice r.ascending r.size key

/-- It is written as the same bytes, since these are made of what is listed. -/
theorem write_catalogue : r.catalogue.write = r.write := by
  rw [Catalogue.write, entries_catalogue]
  rfl

/-- A series that is added is refused by both or placed in both; only here the number that is kept
beside the devices has to go along. -/
theorem add_catalogue (key : SeriesKey) (schema : Schema) :
    r.catalogue.add key schema = (r.add key schema).map catalogue := by
  rw [Catalogue.add, find?_catalogue, add]
  cases hc : r.contains key with
  | true =>
    rw [SeriesTable.contains] at hc
    rw [if_pos hc]
    rfl
  | false =>
    have hnew := SeriesTable.contains_eq_false_iff.1 hc
    -- Among the series of the registry one more is counted too.
    have hsize : (SeriesTable.place key schema r.entries).length = r.entries.length + 1 :=
      (SeriesTable.perm_place hnew).length_eq
    rw [SeriesTable.contains] at hc
    rw [if_neg (Bool.eq_false_iff.1 hc), if_neg Bool.false_ne_true]
    show Except.ok _ = Except.ok _
    congr 1
    simp only [catalogue, place_byDevice r.ascending hnew]
    rw [Catalogue.mk.injEq]
    exact ⟨rfl, hsize.symm⟩

/-- A definition is checked alike and then added. -/
theorem define_catalogue (key : SeriesKey) (schema : Schema) :
    r.catalogue.define key schema = (r.define key schema).map catalogue := by
  unfold Catalogue.define define
  cases schema.check with
  | error fault => rfl
  | ok schema => exact r.add_catalogue key schema

/-- Series are read one after another, each added to those before: by induction on their number. -/
theorem readInto_catalogue (count : Nat) :
    Catalogue.readInto r.catalogue count = catalogue <$> readInto r count := by
  induction count generalizing r with
  | zero => rfl
  | succ count ih =>
    simp only [Catalogue.readInto, readInto, map_bind, add_catalogue]
    congr! 6 with device measurement schema
    cases r.add _ schema with
    | error fault => rfl
    | ok r => exact ih r

/-- So reading a catalogue is reading a registry. -/
theorem read_catalogue : Catalogue.read = catalogue <$> read := by
  simp only [Catalogue.read, read, map_bind]
  congr! 2 with count
  exact readInto_catalogue SeriesTable.empty count.toNat

/-- What was written of a catalogue is read back. -/
theorem read_catalogue_write (hcount : r.catalogue.count < 2 ^ 32) (hnames : r.catalogue.NamesFit)
    (rest : Bytes) : Catalogue.read (r.catalogue.write ++ rest) = .ok (r.catalogue, rest) := by
  have hnames : r.NamesFit := fun key hkey => by
    obtain ⟨entry, he, rfl⟩ := List.mem_map.1 hkey
    exact hnames entry (r.entries_catalogue ▸ he)
  have hread : read (r.write ++ rest) = .ok (r, rest) := reads hnames hcount rest
  rw [read_catalogue, write_catalogue]
  show (read (r.write ++ rest) >>= _) = _
  rw [hread]
  rfl

/-! ### Builders -/

/-- After measurements of a device a builder is where their declarations lead. -/
theorem build_declare (device : String) (measurements : List (String × Schema)) :
    (CatalogueBuilder.declare ⟨r.catalogue, none⟩ device measurements).build =
      (measurements.foldlM (fun (r : Registry) (measurement, schema) =>
        r.define ⟨device, measurement⟩ schema) r).map catalogue := by
  induction measurements generalizing r with
  | nil => rfl
  | cons measurement measurements ih =>
    obtain ⟨measurement, schema⟩ := measurement
    rw [List.foldlM_cons, CatalogueBuilder.declare, define_catalogue]
    cases hdefine : r.define ⟨device, measurement⟩ schema with
    | error fault =>
      simp only [hdefine]
      rfl
    | ok r' =>
      simp only [hdefine]
      exact ih r'

/-- A builder that has seen some devices goes on where their declarations lead. -/
theorem ofDevices_catalogue (devices : List (String × List (String × Schema))) :
    Catalogue.ofDevices devices = (ofDevices devices).map catalogue := by
  induction devices using List.reverseRecOn with
  | nil => rfl
  | append_singleton devices last ih =>
    obtain ⟨device, measurements⟩ := last
    rw [ofDevices_concat, Catalogue.ofDevices, Catalogue.builder, List.foldl_concat]
    change ((Catalogue.builder devices).device device measurements).build = _
    change (Catalogue.builder devices).build = _ at ih
    -- By induction at the end, since a builder goes on from what it has. After a fault it goes
    -- nowhere.
    cases hdevices : ofDevices devices with
    | error fault =>
      rw [hdevices] at ih
      have hfault := CatalogueBuilder.build_eq_error_iff.1 ih
      rw [CatalogueBuilder.device, hfault, Option.isSome_some, if_pos rfl]
      exact ih
    | ok r =>
      rw [hdevices] at ih
      rw [CatalogueBuilder.build_eq_ok_iff.1 ih]
      exact r.build_declare device measurements

/-! ### Declarations -/

/-- A declaration has the same answer and the same result in both. -/
theorem declare_catalogue (d : Declaration) :
    r.catalogue.declare d = Prod.map id catalogue (r.declare d) := by
  have hdeclare : (if d.checked then r.catalogue.define d.key d.schema
      else r.catalogue.add d.key d.schema) =
      (if d.checked then r.define d.key d.schema else r.add d.key d.schema).map catalogue := by
    split
    · exact r.define_catalogue d.key d.schema
    · exact r.add_catalogue d.key d.schema
  rw [Catalogue.declare, hdeclare, declare]
  cases (if d.checked then r.define d.key d.schema else r.add d.key d.schema) <;> rfl

/-- And so have any number of them. -/
theorem declareAll_catalogue (ds : List Declaration) :
    r.catalogue.declareAll ds = Prod.map id catalogue (r.declareAll ds) := by
  induction ds generalizing r with
  | nil => rfl
  | cons d ds ih =>
    rw [Catalogue.declareAll, declare_catalogue]
    dsimp only [Prod.map_fst, Prod.map_snd]
    rw [ih]
    rfl

end Registry

/-! ### What a catalogue is told by -/

namespace Catalogue

/-- A catalogue is what the accepted among some declarations say. -/
structure IsToldBy (c : Catalogue) (ds : List Declaration) (answers : List (Except Fault Unit)) :
    Prop where
  /-- What is acceptable is accepted, unless its series is there already. -/
  answers_eq : answers = Declaration.answers [] ds
  /-- The number that is kept is that of the series that were accepted. -/
  count_eq : c.count = ((Declaration.accepted ds answers).map Declaration.key).dedup.length
  /-- Each has the schema that was accepted first. -/
  find?_eq : ∀ key, c.find? key =
    ((Declaration.accepted ds answers).find? fun d => d.key = key).map Declaration.schema
  /-- Each of them once. -/
  entries_perm : c.entries.Perm ((Declaration.accepted ds answers).map Declaration.entry)
  /-- In the order of devices and, on a device, of measurements. -/
  ascends : (c.entries.map Prod.fst).Pairwise fun a b =>
    a.device < b.device ∨ a.device = b.device ∧ a.measurement < b.measurement

/-- What declarations make of a catalogue is told by those that were accepted, because it is so of
the registry. -/
theorem isToldBy_catalogue (ds : List Declaration) :
    (Registry.declareAll SeriesTable.empty ds).2.catalogue.IsToldBy ds
      (Registry.declareAll SeriesTable.empty ds).1 := by
  have hanswers := @Registry.answers_declareAll SeriesTable.empty [] (fun _ => rfl) ds
  have hentries := Registry.entries_declareAll SeriesTable.empty ds
  -- Both facts are about one run of the declarations, which is not opened any further.
  generalize Registry.declareAll SeriesTable.empty ds = run at hanswers hentries
  obtain ⟨answers, r⟩ := run
  dsimp only at hanswers hentries ⊢
  rw [show (SeriesTable.empty : Registry).entries = [] from rfl, List.nil_append] at hentries
  have hkeys : r.keys.Perm ((Declaration.accepted ds answers).map Declaration.key) := by
    have hmap := hentries.map Prod.fst
    rwa [List.map_map] at hmap
  have hnodup := hkeys.nodup_iff.1 r.nodup_keys
  refine ⟨hanswers, ?_, fun key => ?_, ?_, ?_⟩
  · rw [hnodup.dedup, ← hkeys.length_eq, SeriesTable.keys, List.length_map]
    rfl
  · apply Option.ext
    intro schema
    rw [Registry.find?_catalogue, SeriesTable.find?_eq_some_iff, hentries.mem_iff,
      Declaration.find?_eq_some_iff hnodup]
  · rw [Registry.entries_catalogue]
    exact hentries
  · rw [Registry.entries_catalogue]
    exact r.keys_ascend.imp SeriesKey.compare_eq_lt_iff.1

/-- A catalogue is what the accepted among its declarations say, and nothing else. The same is true
of the registry that it holds. -/
theorem declareAll_canonical (ds : List Declaration) :
    let answers := (declareAll empty ds).1
    let c := (declareAll empty ds).2
    c.IsToldBy ds answers ∧
      (∀ d fault, (c.declare d).1 = .error fault → (c.declare d).2 = c) ∧
      (∀ ds', ds'.Perm ds → ds.Pairwise Declaration.Agrees →
        (declareAll empty ds').2 = c ∧ (declareAll empty ds').2.write = c.write) ∧
      (c.count < 2 ^ 32 → c.NamesFit → ∀ rest, read (c.write ++ rest) = .ok (c, rest)) ∧
      (∀ devices, ds = Declaration.ofDevices devices → ofDevices devices =
        match Declaration.fault? answers with
        | none => .ok c
        | some fault => .error fault) ∧
      (answers, c) = Prod.map id Registry.catalogue (Registry.declareAll SeriesTable.empty ds) := by
  have hrun (ds : List Declaration) : declareAll empty ds =
      Prod.map id Registry.catalogue (Registry.declareAll SeriesTable.empty ds) :=
    Registry.declareAll_catalogue SeriesTable.empty ds
  intro answers c
  have hanswers : answers = (Registry.declareAll SeriesTable.empty ds).1 :=
    congrArg Prod.fst (hrun ds)
  have hc : c = (Registry.declareAll SeriesTable.empty ds).2.catalogue :=
    congrArg Prod.snd (hrun ds)
  refine ⟨?_, ?_, ?_, ?_, ?_, hrun ds⟩
  -- Every part is one of the registry that the catalogue holds, seen through `Registry.catalogue`.
  · rw [hanswers, hc]
    exact isToldBy_catalogue ds
  · intro d fault h
    rw [hc, Registry.declare_catalogue] at h ⊢
    exact congrArg Registry.catalogue (Registry.declare_unchanged _ d h)
  · intro ds' hperm hagree
    have hsame : (declareAll empty ds').2 = c := by
      rw [hc, hrun]
      exact congrArg Registry.catalogue (Registry.declareAll_perm SeriesTable.empty hperm hagree)
    exact ⟨hsame, congrArg write hsame⟩
  · intro hcount hnames rest
    rw [hc] at hcount hnames ⊢
    exact Registry.read_catalogue_write _ hcount hnames rest
  · rintro devices rfl
    rw [Registry.ofDevices_catalogue, Registry.ofDevices_eq, hanswers, hc]
    dsimp only
    cases Declaration.fault? _ <;> rfl

end Catalogue

/-- A device that is named twice. Of its measurements one is declared with an encoding that cannot
carry it and then again, and one is repeated. -/
def sampleDeclared : List (String × List (String × Schema)) := [
  ("d2", [("a", ⟨.int64, .plain, .gzip⟩)]),
  ("d1", [("z", ⟨.int32, .ts2diff, .lz4⟩), ("b", ⟨.double, .ts2diff, .zstd⟩)]),
  ("d10", [("a", ⟨.text, .plain, .uncompressed⟩)]),
  ("d1", [("b", ⟨.double, .gorilla, .zstd⟩), ("z", ⟨.int32, .ts2diff, .lz4⟩)])]

/-- The series come out in order, whichever way they were declared; the number of them is that of
the accepted ones; and the builder stops at the encoding that does not fit. -/
theorem declareAll_canonical_sample :
    let ds := Declaration.ofDevices sampleDeclared
    let run := Catalogue.declareAll .empty ds
    run.2.entries.map Prod.fst = [⟨"d1", "b"⟩, ⟨"d1", "z"⟩, ⟨"d10", "a"⟩, ⟨"d2", "a"⟩] ∧
      run.2.IsToldBy ds run.1 ∧ (Catalogue.declareAll .empty ds.reverse).2 = run.2 ∧
      Catalogue.read (run.2.write ++ [7, 0]) = .ok (run.2, [7, 0]) ∧
      Catalogue.ofDevices sampleDeclared = .error (.unsupportedPair .double .ts2diff) := by
  intro ds run
  obtain ⟨htold, -, hperm, hread, hbuilt, -⟩ := Catalogue.declareAll_canonical ds
  have hagree : ds.Pairwise Declaration.Agrees := by decide +kernel
  have hcount : run.2.count < 2 ^ 32 := by decide +kernel
  have hnames : run.2.NamesFit := by
    unfold Catalogue.NamesFit
    decide +kernel
  have hfault : Declaration.fault? run.1 = some (.unsupportedPair .double .ts2diff) := by
    decide +kernel
  refine ⟨by decide +kernel, htold, (hperm _ ds.reverse_perm hagree).1,
    hread hcount hnames [7, 0], ?_⟩
  rw [hbuilt sampleDeclared rfl]
  show (match Declaration.fault? run.1 with
    | none => Except.ok run.2
    | some fault => .error fault) = _
  rw [hfault]

end SeriesFile
