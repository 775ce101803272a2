import SeriesFile.Proofs.Layout
import SeriesFile.Proofs.Lookup

/-!
# The index of a file of runs

The index that a writer keeps lists, for every series, the chunks of its runs in the order of the
file (`Indexed`). Adding a chunk keeps it so (`Indexed.insert`). A footer built from such an index
can be read back, finds exactly the series that have runs, and leads to their points. All its
entries together are those of the chunks in the file (`Indexed.perm_entries`).
-/

namespace SeriesFile

namespace Statistics

/-- Statistics of one type can always be merged, since nothing but the type is ever in the way. -/
theorem merge_ok {s later : Statistics} (h : s.dataType = later.dataType) :
    ∃ merged, s.merge later = .ok merged ∧ merged.dataType = s.dataType := by
  obtain ⟨count, startTime, endTime, values⟩ := s
  obtain ⟨count', startTime', endTime', values'⟩ := later
  have hvalues : values.dataType = values'.dataType := h
  cases values <;> cases values' <;> first | contradiction | exact ⟨_, rfl, rfl⟩

/-- Only statistics of one type are merged. -/
theorem dataType_of_merge {s later merged : Statistics} (h : s.merge later = .ok merged) :
    later.dataType = s.dataType ∧ merged.dataType = s.dataType := by
  obtain ⟨count, startTime, endTime, values⟩ := s
  obtain ⟨count', startTime', endTime', values'⟩ := later
  cases values <;> cases values' <;> cases h <;> exact ⟨rfl, rfl⟩

end Statistics

namespace SeriesEntry

/-- The entry of a series is what its chunks, entered one after another, make it. -/
inductive Lists (key : SeriesKey) : List ChunkEntry → SeriesEntry → Prop
  | single (c : ChunkEntry) : Lists key [c] (.single key c)
  | push {chunks : List ChunkEntry} {e e' : SeriesEntry} {c : ChunkEntry} :
      Lists key chunks e → e.push c = .ok e' → Lists key (chunks ++ [c]) e'

variable {key : SeriesKey} {chunks : List ChunkEntry} {e : SeriesEntry}

/-- A chunk is entered by merging its statistics and listing it last. -/
theorem push_ok {e' : SeriesEntry} {c : ChunkEntry} (h : e.push c = .ok e') :
    ∃ statistics, e.statistics.merge c.statistics = .ok statistics ∧
      e' = { e with statistics, chunks := e.chunks ++ [c] } := by
  obtain ⟨statistics, hm, h⟩ := bind_eq_ok.1 h
  exact ⟨statistics, hm, (Except.ok.inj h).symm⟩

namespace Lists

theorem key_eq (h : Lists key chunks e) : e.key = key := by
  induction h with
  | single c => rfl
  | push _ hp ih =>
    obtain ⟨statistics, -, rfl⟩ := push_ok hp
    exact ih

/-- The entry lists the chunks in the order in which they were entered. -/
theorem chunks_eq (h : Lists key chunks e) : e.chunks = chunks := by
  induction h with
  | single c => rfl
  | push _ hp ih =>
    obtain ⟨statistics, -, rfl⟩ := push_ok hp
    rw [← ih]

/-- There is no entry without a chunk. -/
theorem chunks_ne_nil (h : Lists key chunks e) : chunks ≠ [] := by
  cases h with
  | single c => exact List.cons_ne_nil _ _
  | push => simp

/-- The entry of chunks of one type is of that type. -/
theorem dataType_eq (h : Lists key chunks e) {type : DataType}
    (ht : ∀ c ∈ chunks, c.statistics.dataType = type) :
    e.dataType = type ∧ e.statistics.dataType = type := by
  -- By induction on the chunks as they were entered: the last one is of the type of those before.
  induction h with
  | single c => exact ⟨ht c (.head _), ht c (.head _)⟩
  | push _ hp ih =>
    obtain ⟨statistics, hm, rfl⟩ := push_ok hp
    obtain ⟨htype, hstatistics⟩ := ih fun c hc => ht c (List.mem_append_left _ hc)
    have hlast := ht _ (List.mem_append_right _ (.head _))
    obtain ⟨merged, hm', hmerged⟩ := Statistics.merge_ok (hstatistics.trans hlast.symm)
    obtain rfl := Except.ok.inj (hm.symm.trans hm')
    exact ⟨htype, hmerged.trans hstatistics⟩

/-- Whatever could be entered is of the type of the first chunk, as other types cannot be merged
with it. -/
theorem typed (h : Lists key chunks e) : e.Typed := by
  induction h with
  | single c =>
    refine ⟨rfl, fun c' hc' => ?_⟩
    rw [List.mem_singleton.1 hc']
    rfl
  | push _ hp ih =>
    obtain ⟨statistics, hm, rfl⟩ := push_ok hp
    obtain ⟨hlater, hmerged⟩ := Statistics.dataType_of_merge hm
    refine ⟨hmerged.trans ih.statistics, fun c' hc' => ?_⟩
    rcases List.mem_append.1 hc' with hold | hnew
    · exact ih.chunks c' hold
    · rw [List.mem_singleton.1 hnew]
      exact hlater.trans ih.statistics

end Lists

end SeriesEntry

variable [Compressor]

/-- The runs that went into a file and the index that was kept of them. -/
structure Indexed (registry : Registry) (runs : List Run) (index : SeriesTable SeriesEntry) :
    Prop where
  /-- Every run is stored as the registry says. -/
  schemas : ∀ run ∈ runs, registry.find? run.key = some run.schema
  /-- A series without runs has no entry. -/
  absent : ∀ key, Run.entriesOf key runs = [] → index.find? key = none
  /-- The entry of any other series lists its chunks. -/
  present : ∀ key, Run.entriesOf key runs ≠ [] →
    ∃ e, index.find? key = some e ∧ e.Lists key (Run.entriesOf key runs)

namespace Indexed

variable {registry : Registry} {runs : List Run} {index : SeriesTable SeriesEntry}

/-- Of no runs nothing is kept. -/
theorem empty (registry : Registry) : Indexed registry [] SeriesTable.empty :=
  ⟨fun _ h => (List.not_mem_nil h).elim, fun _ _ => rfl, fun _ h => absurd rfl h⟩

/-- The chunks of a series are of the type it is registered with. -/
theorem dataType_entries (h : Indexed registry runs index) {key : SeriesKey} {schema : Schema}
    (hs : registry.find? key = some schema) {c : ChunkEntry} (hc : c ∈ Run.entriesOf key runs) :
    c.statistics.dataType = schema.dataType := by
  obtain ⟨placed, hp, rfl⟩ := List.mem_map.1 hc
  obtain ⟨hp, hkey⟩ := List.mem_filter.1 hp
  have hkey : placed.2.key = key := of_decide_eq_true hkey
  have hschema := h.schemas placed.2 (Run.mem_of_mem_inFile hp)
  rw [hkey, hs] at hschema
  rw [Option.some.inj hschema]
  exact placed.2.dataType_statistics

/-- The index with the entry of one series replaced. -/
theorem insert (h : Indexed registry runs index) {run : Run}
    (hs : registry.find? run.key = some run.schema) {e : SeriesEntry}
    (he : e.Lists run.key (Run.entriesOf run.key runs ++ [Run.entry (run.nextPlace runs, run)])) :
    Indexed registry (runs ++ [run]) (index.insert run.key e) where
  schemas other ho := by
    rcases List.mem_append.1 ho with ho | ho
    · exact h.schemas other ho
    · obtain rfl := List.mem_singleton.1 ho
      exact hs
  -- Another series has gained no chunk, so it has no entry either.
  absent key hkey := by
    rw [Run.entriesOf_append, List.append_eq_nil_iff] at hkey
    obtain ⟨hnil, hother⟩ := hkey
    have hne : run.key ≠ key := fun heq => by simp [heq] at hother
    rw [SeriesTable.find?_insert, if_neg hne]
    exact h.absent key hnil
  present key hkey := by
    rw [SeriesTable.find?_insert]
    by_cases heq : run.key = key
    · subst heq
      refine ⟨e, if_pos rfl, ?_⟩
      rw [Run.entriesOf_append, if_pos rfl]
      exact he
    · rw [Run.entriesOf_append, if_neg heq, List.append_nil] at hkey
      rw [if_neg heq, Run.entriesOf_append, if_neg heq, List.append_nil]
      exact h.present key hkey

/-- The first chunk of a series gets an entry of its own. -/
theorem append_single (h : Indexed registry runs index) {run : Run}
    (hs : registry.find? run.key = some run.schema) (hnone : index.find? run.key = none) :
    Indexed registry (runs ++ [run])
      (index.insert run.key (.single run.key (Run.entry (run.nextPlace runs, run)))) := by
  apply h.insert hs
  -- A series with chunks would have an entry.
  have hnil : Run.entriesOf run.key runs = [] := by
    by_contra hne
    obtain ⟨e, he, -⟩ := h.present run.key hne
    rw [hnone] at he
    contradiction
  rw [hnil]
  exact .single _

/-- Any other chunk can be added to the entry of its series. -/
theorem append_push (h : Indexed registry runs index) {run : Run}
    (hs : registry.find? run.key = some run.schema) {e : SeriesEntry}
    (he : index.find? run.key = some e) :
    ∃ e', e.push (Run.entry (run.nextPlace runs, run)) = .ok e' ∧
      Indexed registry (runs ++ [run]) (index.insert run.key e') := by
  have hne : Run.entriesOf run.key runs ≠ [] := by
    intro hnil
    rw [h.absent run.key hnil] at he
    contradiction
  obtain ⟨e₀, he₀, hlists⟩ := h.present run.key hne
  obtain rfl := Option.some.inj (he.symm.trans he₀)
  have htypes := (hlists.dataType_eq fun c hc => h.dataType_entries hs hc).2
  -- All chunks of the series are of one type, so the statistics can be merged.
  obtain ⟨statistics, hm, -⟩ := Statistics.merge_ok
    (htypes.trans (run.dataType_statistics).symm : e.statistics.dataType = run.statistics.dataType)
  have hpush : e.push (Run.entry (run.nextPlace runs, run)) =
      .ok { e with
        statistics, chunks := e.chunks ++ [Run.entry (run.nextPlace runs, run)] } := by
    rw [SeriesEntry.push, Run.entry, hm]
    rfl
  exact ⟨_, hpush, h.insert hs (hlists.push hpush)⟩

/-! ### The footer of an index -/

section

variable (h : Indexed registry runs index)
include h

/-- Every entry lists the chunks of its series, and no series has an entry without a chunk. -/
theorem lists_of_mem {key : SeriesKey} {e : SeriesEntry} (he : (key, e) ∈ index.entries) :
    e.Lists key (Run.entriesOf key runs) := by
  have hfind := SeriesTable.find?_eq_some_iff.2 he
  have hne : Run.entriesOf key runs ≠ [] := by
    intro hnil
    rw [h.absent key hnil] at hfind
    contradiction
  obtain ⟨e', he', hlists⟩ := h.present key hne
  obtain rfl := Option.some.inj (hfind.symm.trans he')
  exact hlists

/-- The entries tell their series themselves. -/
theorem map_key_values : index.values.map SeriesEntry.key = index.keys := by
  rw [SeriesTable.values, SeriesTable.keys, List.map_map]
  exact List.map_congr_left fun entry he => (h.lists_of_mem he).key_eq

/-- They are in the order of the series, which the footer counts on. -/
theorem ascends_values : Footer.Ascends index.values := by
  have hkeys := index.keys_ascend
  rw [← h.map_key_values] at hkeys
  exact List.pairwise_map.1 hkeys

/-- Every entry lists the chunks of the series it tells. -/
theorem lists_of_mem_values {e : SeriesEntry} (he : e ∈ index.values) :
    e.Lists e.key (Run.entriesOf e.key runs) := by
  obtain ⟨⟨key, e⟩, hentry, rfl⟩ := List.mem_map.1 he
  have hlists := h.lists_of_mem hentry
  rwa [hlists.key_eq]

/-- Only registered series have entries. -/
theorem schema_of_mem_values {e : SeriesEntry} (he : e ∈ index.values) :
    ∃ schema, registry.find? e.key = some schema := by
  obtain ⟨c, hc⟩ := List.exists_mem_of_ne_nil _ (h.lists_of_mem_values he).chunks_ne_nil
  obtain ⟨placed, hp, -⟩ := List.mem_map.1 hc
  obtain ⟨hp, hkey⟩ := List.mem_filter.1 hp
  have hschema := h.schemas placed.2 (Run.mem_of_mem_inFile hp)
  rw [of_decide_eq_true hkey] at hschema
  exact ⟨_, hschema⟩

theorem typed_values {e : SeriesEntry} (he : e ∈ index.values) : e.Typed :=
  (h.lists_of_mem_values he).typed

/-- The entries of an index, each with its series, are those of the chunks. -/
theorem perm_entries : (index.values.flatMap fun e => e.chunks.map fun c => (e.key, c)).Perm
    ((Run.inFile runs).map fun placed => (placed.2.key, Run.entry placed)) := by
  -- Every chunk in the file is of a series that has an entry.
  have hcovered (placed : Nat × Run) (hp : placed ∈ Run.inFile runs) :
      placed.2.key ∈ index.keys := by
    have hne : Run.entriesOf placed.2.key runs ≠ [] :=
      List.ne_nil_of_mem (List.mem_map_of_mem (List.mem_filter.2 ⟨hp, decide_eq_true rfl⟩))
    obtain ⟨e, he, -⟩ := h.present placed.2.key hne
    exact SeriesTable.mem_keys_iff.2 ⟨e, he⟩
  -- Series by series the entries are those of the chunks that were picked out of the file.
  have hsame : (index.values.flatMap fun e => e.chunks.map fun c => (e.key, c)) =
      (index.keys.flatMap fun key => (Run.inFile runs).filter fun placed =>
        placed.2.key = key).map fun placed => (placed.2.key, Run.entry placed) := by
    rw [← h.map_key_values, List.flatMap_map, List.map_flatMap]
    apply List.flatMap_congr
    intro e he
    rw [(h.lists_of_mem_values he).chunks_eq, Run.entriesOf, List.map_map]
    apply List.map_congr_left
    intro placed hp
    rw [Function.comp_apply, of_decide_eq_true (List.mem_filter.1 hp).2]
  rw [hsame]
  exact (perm_flatMap_filter _ index.nodup_keys hcovered).map _

/-- So the footer of an index can be read back. -/
theorem sound_footer [Logarithm] (rateBits : UInt64) :
    (Footer.build registry index.values rateBits).Sound :=
  ⟨fun _ he => h.typed_values he, Footer.words_build_ne_nil registry index.values rateBits⟩

end

end Indexed

end SeriesFile
