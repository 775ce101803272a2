import SeriesFile.Proofs.Declarations

/-!
# Registries from bytes

Bytes list series with their schemas. Reading a registry from them is adding the series of the list,
so it is read if no series is listed twice, and is told by the list (`Registry.read_of_listed`).

Whether an encoding can carry the type that it is listed with, nothing looks. A registry that was
read could have been declared exactly if all its schemas are supported
(`Registry.read_definable_iff`).
-/

namespace SeriesFile.Registry

/-- One series with its schema. -/
def readEntry : Reader (SeriesKey × Schema) := do
  let device ← Reader.text
  let measurement ← Reader.text
  let schema ← Schema.read
  return (⟨device, measurement⟩, schema)

/-- The series with their schemas that bytes list, also if one is listed twice. -/
def readEntries : Reader (List (SeriesKey × Schema)) := do
  let count ← Reader.u32
  Reader.replicate count.toNat readEntry

/-- Reading into a registry is reading an entry and adding it. -/
theorem readInto_succ (r : Registry) (count : Nat) :
    readInto r (count + 1) = readEntry >>= fun entry =>
      match r.add entry.1 entry.2 with
      | .ok r => readInto r count
      | .error fault => Reader.fail fault := by
  simp only [readEntry, bind_assoc, pure_bind]
  rfl

/-- What is listed is added. -/
theorem readInto_of_listed {r : Registry} {count : Nat} {bytes rest : Bytes}
    {entries : List (SeriesKey × Schema)}
    (h : Reader.replicate count readEntry bytes = .ok (entries, rest)) :
    readInto r count bytes = (addAll .ok r entries).map fun r => (r, rest) := by
  induction count generalizing r bytes entries with
  | zero =>
    cases h
    rfl
  | succ count ih =>
    obtain ⟨entry, left, hentry, h⟩ := Reader.bind_ok.1 h
    obtain ⟨others, left', hothers, h⟩ := Reader.bind_ok.1 h
    cases h
    rw [readInto_succ, addAll_cons]
    show (readEntry bytes >>= _) = _
    rw [hentry, ok_bind, ok_bind]
    dsimp only
    -- Where one series is refused the others are not added on either side.
    cases r.add entry.1 entry.2 with
    | error fault => rfl
    | ok r => exact ih hothers

/-- Where no list can be read, nothing is read. -/
theorem readInto_of_unlisted {r : Registry} {count : Nat} {bytes : Bytes} {fault : Fault}
    (h : Reader.replicate count readEntry bytes = .error fault) :
    ∃ fault', readInto r count bytes = .error fault' := by
  induction count generalizing r bytes with
  | zero => contradiction
  | succ count ih =>
    rw [readInto_succ]
    show ∃ fault', (readEntry bytes >>= _) = .error fault'
    change (readEntry bytes >>= _) = .error fault at h
    cases hentry : readEntry bytes with
    | error fault' => exact ⟨fault', rfl⟩
    | ok taken =>
      obtain ⟨entry, left⟩ := taken
      rw [hentry, ok_bind] at h
      rw [ok_bind]
      dsimp only
      -- Reading may fail earlier, at a series that is there already.
      cases r.add entry.1 entry.2 with
      | error fault' => exact ⟨fault', rfl⟩
      | ok r =>
        change (Reader.replicate count readEntry left >>= _) = .error fault at h
        rcases bind_eq_error.1 h with h | ⟨others, -, h⟩
        · exact ih h
        · contradiction

/-- A registry is read by adding what is listed. -/
theorem read_of_listed {bytes rest : Bytes} {entries : List (SeriesKey × Schema)}
    (h : readEntries bytes = .ok (entries, rest)) :
    read bytes = (addAll .ok SeriesTable.empty entries).map fun r => (r, rest) := by
  obtain ⟨count, left, hcount, h⟩ := Reader.bind_ok.1 h
  show (Reader.u32 bytes >>= _) = _
  rw [hcount, ok_bind]
  exact readInto_of_listed h

/-- Bytes that list no series hold no registry. -/
theorem read_of_unlisted {bytes : Bytes} {fault : Fault} (h : readEntries bytes = .error fault) :
    ∃ fault', read bytes = .error fault' := by
  change (Reader.u32 bytes >>= _) = .error fault at h
  show ∃ fault', (Reader.u32 bytes >>= _) = .error fault'
  rcases bind_eq_error.1 h with h | ⟨⟨count, left⟩, hcount, h⟩
  · exact ⟨fault, bind_eq_error.2 (.inl h)⟩
  · rw [hcount, ok_bind]
    exact readInto_of_unlisted h

/-- A registry is read if series are listed, each once, and then it is made of them. -/
theorem read_eq_ok_iff {bytes rest : Bytes} {r : Registry} :
    read bytes = .ok (r, rest) ↔
      ∃ entries, readEntries bytes = .ok (entries, rest) ∧ entries.Perm r.entries := by
  constructor
  · intro h
    cases hlist : readEntries bytes with
    | error fault =>
      obtain ⟨fault', hfault⟩ := read_of_unlisted hlist
      rw [hfault] at h
      contradiction
    | ok taken =>
      obtain ⟨entries, left⟩ := taken
      rw [read_of_listed hlist] at h
      cases hadd : addAll .ok SeriesTable.empty entries with
      | error fault =>
        rw [hadd] at h
        contradiction
      | ok r' =>
        rw [hadd] at h
        cases h
        exact ⟨entries, rfl, addAll_self_eq_ok_iff.1 hadd⟩
  · rintro ⟨entries, hlist, hperm⟩
    have hadd : addAll .ok SeriesTable.empty entries = .ok r := addAll_self_eq_ok_iff.2 hperm
    rw [read_of_listed hlist, hadd]
    rfl

/-- A list that names a series twice is refused at the first series that it has named before. -/
theorem read_of_repeated {bytes rest : Bytes} {entries : List (SeriesKey × Schema)}
    (h : readEntries bytes = .ok (entries, rest)) (hrepeated : ¬(entries.map Prod.fst).Nodup) :
    ∃ front entry back, entries = front ++ entry :: back ∧ (front.map Prod.fst).Nodup ∧
      entry.1 ∈ front.map Prod.fst ∧ read bytes = .error (.duplicateSeries entry.1) := by
  cases hadd : addAll .ok SeriesTable.empty entries with
  | ok r =>
    have hperm := addAll_self_eq_ok_iff.1 hadd
    exact absurd ((hperm.map Prod.fst).nodup_iff.2 r.nodup_keys) hrepeated
  | error fault =>
    obtain ⟨front, entry, back, r, rfl, hfront, hentry⟩ := addAll_eq_error_iff.1 hadd
    have hkeys := (addAll_self_eq_ok_iff.1 hfront).map Prod.fst
    obtain ⟨_, hsame, hmem, rfl⟩ := hentry.resolve_left nofun
    obtain rfl := Except.ok.inj hsame
    refine ⟨front, entry, back, rfl, hkeys.nodup_iff.2 r.nodup_keys, hkeys.mem_iff.2 hmem, ?_⟩
    rw [read_of_listed h, hadd]
    rfl

/-- Only a schema that no declaration would accept keeps a registry from being declared. -/
theorem definable_iff {r : Registry} :
    (∃ definitions, ofDefinitions definitions = .ok r) ↔
      ∀ entry ∈ r.entries, entry.2.isSupported := by
  constructor
  · rintro ⟨definitions, h⟩ entry he
    obtain ⟨hperm, hs⟩ := ofDefinitions_eq_ok_iff.1 h
    exact hs entry (hperm.mem_iff.2 he)
  · intro hs
    exact ⟨r.entries, ofDefinitions_eq_ok_iff.2 ⟨.refl _, hs⟩⟩

/-- A registry that is read has each series that the bytes list once, with the schema that it is
listed with. It could have been declared exactly if all these schemas are supported. Bytes that list
a series twice are refused. -/
theorem read_definable_iff (bytes : Bytes) :
    (∀ r rest, read bytes = .ok (r, rest) ↔ ∃ entries,
      readEntries bytes = .ok (entries, rest) ∧ (entries.map Prod.fst).Nodup ∧
        entries.Perm r.entries) ∧
    (∀ r rest, read bytes = .ok (r, rest) →
      ((∃ definitions, ofDefinitions definitions = .ok r) ↔
        ∀ entry ∈ r.entries, entry.2.isSupported)) ∧
    (∀ entries rest, readEntries bytes = .ok (entries, rest) → ¬(entries.map Prod.fst).Nodup →
      ∃ front entry back, entries = front ++ entry :: back ∧ (front.map Prod.fst).Nodup ∧
        entry.1 ∈ front.map Prod.fst ∧ read bytes = .error (.duplicateSeries entry.1)) := by
  refine ⟨fun r rest => ?_, fun r rest _ => definable_iff, fun entries rest => read_of_repeated⟩
  rw [read_eq_ok_iff]
  refine exists_congr fun entries => and_congr_right fun _ => ?_
  exact ⟨fun hperm => ⟨(hperm.map Prod.fst).nodup_iff.2 r.nodup_keys, hperm⟩, And.right⟩

end SeriesFile.Registry

namespace SeriesFile

/-- A list of one series, of Booleans that are encoded as differences. -/
def sampleListing : Bytes := [1, 0, 0, 0, 1, 0x64, 1, 0x6d, 0, 4, 7]

/-- It is read, but it could not have been declared. With the series listed again it is refused. -/
theorem read_definable_iff_sample :
    (∃ r, Registry.read sampleListing = .ok (r, []) ∧
      ¬∃ definitions, Registry.ofDefinitions definitions = .ok r) ∧
    Registry.read (2 :: sampleListing.tail ++ sampleListing.drop 4) =
      .error (.duplicateSeries ⟨"d", "m"⟩) := by
  let entry : SeriesKey × Schema := (⟨"d", "m"⟩, ⟨.boolean, .ts2diff, .lz4⟩)
  constructor
  · obtain ⟨hread, hdefinable, -⟩ := Registry.read_definable_iff sampleListing
    have hlist : Registry.readEntries sampleListing = .ok ([entry], []) := by decide +kernel
    let r : Registry := SeriesTable.insert SeriesTable.empty entry.1 entry.2
    have hr : Registry.read sampleListing = .ok (r, []) :=
      (hread r []).2 ⟨[entry], hlist, by decide, .refl _⟩
    refine ⟨r, hr, fun hdefined => ?_⟩
    have hsupported := (hdefinable r [] hr).1 hdefined entry (.head _)
    contradiction
  · obtain ⟨-, -, hrepeated⟩ :=
      Registry.read_definable_iff (2 :: sampleListing.tail ++ sampleListing.drop 4)
    have hlist : Registry.readEntries (2 :: sampleListing.tail ++ sampleListing.drop 4) =
        .ok ([entry, entry], []) := by decide +kernel
    obtain ⟨front, entry', back, heq, -, -, hread⟩ := hrepeated _ _ hlist (by decide)
    have hmem : entry' ∈ [entry, entry] := heq ▸ List.mem_append_right front (.head _)
    obtain rfl : entry' = entry := by simpa using hmem
    exact hread

end SeriesFile
