import Mathlib.Data.List.Dedup
import Mathlib.Data.List.Forall2
import Mathlib.Data.List.Pairwise
import SeriesFile.Proofs.Parts

/-!
# What declarations make of a registry

A registry is built by declarations, some of which are refused. An answer depends on what was
declared before (`Registry.answers_declareAll`), and the accepted declarations are what there is in
the end (`Registry.entries_declareAll`), whatever their order (`Registry.declareAll_perm`).

Registries are also built of things that stand for series in other ways: of numbers that a session
has given out, or of bytes. All of them are added one after another, and what is said about it here
(`Registry.addAll_eq_ok_iff`, `Registry.addAll_eq_error_iff`) serves for all.
-/

namespace SeriesFile

/-! ### The order of series -/

/-- Series are ordered by their devices, and those of one device by their measurements. -/
theorem SeriesKey.compare_eq_lt_iff {a b : SeriesKey} :
    compare a b = .lt ↔
      a.device < b.device ∨ a.device = b.device ∧ a.measurement < b.measurement := by
  show ((compare a.device b.device).then (compare a.measurement b.measurement)) = .lt ↔ _
  rw [Ordering.then_eq_lt, Std.compare_eq_iff_eq]
  exact or_congr compareOfLessAndEq_eq_lt (and_congr_right fun _ => compareOfLessAndEq_eq_lt)

/-- A table contains the series of its entries. -/
theorem SeriesTable.contains_iff {α : Type} {t : SeriesTable α} {key : SeriesKey} :
    t.contains key = true ↔ key ∈ t.keys := by
  rw [contains, Option.isSome_iff_exists, mem_keys_iff]

/-- What different series are given makes a table. -/
theorem SeriesTable.exists_perm {α : Type} {entries : List (SeriesKey × α)}
    (h : (entries.map Prod.fst).Nodup) : ∃ t : SeriesTable α, entries.Perm t.entries := by
  induction entries with
  | nil => exact ⟨empty, .refl _⟩
  | cons entry entries ih =>
    obtain ⟨hnew, hothers⟩ := List.nodup_cons.1 h
    obtain ⟨t, hperm⟩ := ih hothers
    have hnew : ∀ other ∈ t.entries, entry.1 ≠ other.1 := fun other ho heq =>
      hnew (List.mem_map.2 ⟨other, hperm.mem_iff.2 ho, heq.symm⟩)
    exact ⟨t.insert entry.1 entry.2, (hperm.cons entry).trans (perm_place hnew).symm⟩

namespace Registry

/-! ### Adding one series after another -/

/-- A series is added if it is new. -/
theorem add_eq_ok_iff {r r' : Registry} {key : SeriesKey} {schema : Schema} :
    r.add key schema = .ok r' ↔ r.contains key = false ∧ r' = r.insert key schema := by
  unfold add
  cases r.contains key with
  | true => simp
  | false => simp [eq_comm]

/-- A series that is there already is refused as a duplicate. -/
theorem add_eq_error_iff {r : Registry} {key : SeriesKey} {schema : Schema} {fault : Fault} :
    r.add key schema = .error fault ↔ r.contains key = true ∧ fault = .duplicateSeries key := by
  unfold add
  cases r.contains key with
  | true => simp [eq_comm]
  | false => simp

section

variable {ι : Type} {find : ι → Except Fault (SeriesKey × Schema)} {start r : Registry}
  {xs : List ι} {fault : Fault}

/-- Adds the series that some things stand for, one after another, up to the first fault. -/
def addAll (find : ι → Except Fault (SeriesKey × Schema)) (r : Registry) (xs : List ι) :
    Except Fault Registry :=
  xs.foldlM (fun r x => do
    let entry ← find x
    r.add entry.1 entry.2) r

theorem addAll_cons (x : ι) :
    addAll find start (x :: xs) =
      (find x >>= fun entry => start.add entry.1 entry.2) >>= fun r => addAll find r xs :=
  List.foldlM_cons

/-- All of them are added if all of them stand for series, which differ from each other and from
those that are there. -/
theorem addAll_eq_ok_iff :
    addAll find start xs = .ok r ↔ ∃ entries,
      List.Forall₂ (fun x entry => find x = .ok entry) xs entries ∧
        (start.entries ++ entries).Perm r.entries := by
  -- What is added first belongs to the start of the others, so the start is any registry.
  induction xs generalizing start with
  | nil =>
    constructor
    · intro h
      obtain rfl := Except.ok.inj h
      exact ⟨[], .nil, by rw [List.append_nil]⟩
    · rintro ⟨entries, hfound, hperm⟩
      obtain rfl := List.forall₂_nil_left_iff.1 hfound
      rw [List.append_nil] at hperm
      exact congrArg _ (SeriesTable.eq_of_perm hperm)
  | cons x xs ih =>
    -- The new entry may stand at its place in the table, or in front of the others.
    have hinsert {key : SeriesKey} {schema : Schema} (entries : List (SeriesKey × Schema))
        (hnew : start.contains key = false) :
        ((start.insert key schema).entries ++ entries).Perm
          (start.entries ++ (key, schema) :: entries) :=
      ((SeriesTable.perm_place (SeriesTable.contains_eq_false_iff.1 hnew)).append_right
        entries).trans List.perm_middle.symm
    rw [addAll_cons]
    constructor
    · intro h
      obtain ⟨next, hnext, hr⟩ := bind_eq_ok.1 h
      obtain ⟨⟨key, schema⟩, hx, hadd⟩ := bind_eq_ok.1 hnext
      obtain ⟨hnew, rfl⟩ := add_eq_ok_iff.1 hadd
      obtain ⟨entries, hfound, hperm⟩ := ih.1 hr
      exact ⟨_, .cons hx hfound, (hinsert entries hnew).symm.trans hperm⟩
    · rintro ⟨_, hall, hperm⟩
      obtain ⟨⟨key, schema⟩, entries, hx, hfound, rfl⟩ := List.forall₂_cons_left_iff.1 hall
      -- The series of a table differ, so the first one was not there.
      have hdistinct := (hperm.pairwise_iff fun h => Ne.symm h).2 r.pairwise_ne
      have hnew : start.contains key = false :=
        SeriesTable.contains_eq_false_iff.2 fun entry he =>
          ((List.pairwise_append.1 hdistinct).2.2 entry he (key, schema) (.head _)).symm
      rw [hx, ok_bind, add_eq_ok_iff.2 ⟨hnew, rfl⟩, ok_bind]
      exact ih.2 ⟨entries, hfound, (hinsert entries hnew).trans hperm⟩

/-- Otherwise the first that stands for nothing, or for a series that is there by then, decides. -/
theorem addAll_eq_error_iff :
    addAll find start xs = .error fault ↔ ∃ front x back r, xs = front ++ x :: back ∧
      addAll find start front = .ok r ∧ (find x = .error fault ∨
        ∃ entry, find x = .ok entry ∧ entry.1 ∈ r.keys ∧ fault = .duplicateSeries entry.1) := by
  induction xs generalizing start with
  | nil => exact ⟨nofun, fun ⟨front, x, back, r, h, _⟩ => by simp at h⟩
  | cons x xs ih =>
    rw [addAll_cons]
    constructor
    · intro h
      -- Either the first one is at fault, or it was added and the fault is among the others.
      rcases bind_eq_error.1 h with h | ⟨next, hnext, h⟩
      · refine ⟨[], x, xs, start, rfl, rfl, ?_⟩
        refine (bind_eq_error.1 h).imp_right fun ⟨entry, hx, hadd⟩ => ⟨entry, hx, ?_⟩
        rwa [add_eq_error_iff, SeriesTable.contains_iff] at hadd
      · obtain ⟨front, y, back, r, rfl, hfront, hy⟩ := ih.1 h
        refine ⟨x :: front, y, back, r, rfl, ?_, hy⟩
        rw [addAll_cons, hnext]
        exact hfront
    · rintro ⟨front, y, back, r, heq, hfront, hy⟩
      cases front with
      | nil =>
        obtain ⟨rfl, rfl⟩ := List.cons.inj heq
        obtain rfl := Except.ok.inj hfront
        refine bind_eq_error.2 (.inl (bind_eq_error.2 ?_))
        refine hy.imp_right fun ⟨entry, hx, hadd⟩ => ⟨entry, hx, ?_⟩
        rwa [add_eq_error_iff, SeriesTable.contains_iff]
      | cons z front =>
        obtain ⟨rfl, rfl⟩ := List.cons.inj heq
        rw [addAll_cons] at hfront
        obtain ⟨next, hnext, hfront⟩ := bind_eq_ok.1 hfront
        exact bind_eq_error.2 (.inr ⟨next, hnext, ih.2 ⟨front, y, back, r, rfl, hfront, hy⟩⟩)

end

/-- Things that stand for themselves are added if each series is new. -/
theorem addAll_self_eq_ok_iff {start r : Registry} {entries : List (SeriesKey × Schema)} :
    addAll .ok start entries = .ok r ↔ (start.entries ++ entries).Perm r.entries := by
  rw [addAll_eq_ok_iff]
  constructor
  · rintro ⟨found, hfound, hperm⟩
    have hsame : List.Forall₂ (· = ·) entries found := hfound.imp fun _ _ => Except.ok.inj
    rw [List.forall₂_eq_eq_eq] at hsame
    rwa [hsame]
  · intro hperm
    exact ⟨entries, List.forall₂_same.2 fun _ _ => rfl, hperm⟩

/-! ### Registries of definitions -/

/-- To declare a series is to add it after a look at its schema. -/
theorem define_eq (r : Registry) (key : SeriesKey) (schema : Schema) :
    r.define key schema =
      schema.check.map (fun schema => (key, schema)) >>= fun entry => r.add entry.1 entry.2 := by
  unfold define
  cases schema.check <;> rfl

/-- Definitions stand for themselves if their schemas are supported, and for nothing otherwise. -/
theorem forall₂_check_iff {definitions entries : List (SeriesKey × Schema)} :
    List.Forall₂ (fun d entry => d.2.check.map (fun schema => (d.1, schema)) = .ok entry)
        definitions entries ↔ (∀ d ∈ definitions, d.2.isSupported) ∧ definitions = entries := by
  have hcheck (d entry : SeriesKey × Schema) :
      d.2.check.map (fun schema => (d.1, schema)) = .ok entry ↔ d.2.isSupported ∧ d = entry := by
    unfold Schema.check
    split
    · rename_i hs
      simp [Except.map, hs]
    · rename_i hs
      simp [Except.map, hs]
  simp only [hcheck]
  have hand := List.forall₂_and_left (R := Eq) (p := fun d : SeriesKey × Schema => d.2.isSupported)
    definitions entries
  rwa [List.forall₂_eq_eq_eq] at hand

/-- The series of a registry were declared once each, with encodings that can carry their types.
The order of the declarations is not in it. -/
theorem ofDefinitions_eq_ok_iff {r : Registry} {definitions : List (SeriesKey × Schema)} :
    ofDefinitions definitions = .ok r ↔
      definitions.Perm r.entries ∧ ∀ d ∈ definitions, d.2.isSupported := by
  -- Definitions stand for themselves once their schemas were checked.
  have hadd : ofDefinitions definitions = addAll
      (fun d => d.2.check.map fun schema => (d.1, schema)) SeriesTable.empty definitions := by
    simp only [ofDefinitions, define_eq]
    rfl
  rw [hadd, addAll_eq_ok_iff]
  simp only [forall₂_check_iff]
  constructor
  · rintro ⟨_, ⟨hs, rfl⟩, hperm⟩
    exact ⟨hperm, hs⟩
  · rintro ⟨hperm, hs⟩
    exact ⟨definitions, ⟨hs, rfl⟩, hperm⟩

/-- Definitions may be made in any order. -/
theorem ofDefinitions_perm {r : Registry} {definitions definitions' : List (SeriesKey × Schema)}
    (h : definitions'.Perm definitions) (hr : ofDefinitions definitions = .ok r) :
    ofDefinitions definitions' = .ok r := by
  obtain ⟨hentries, hs⟩ := ofDefinitions_eq_ok_iff.1 hr
  exact ofDefinitions_eq_ok_iff.2 ⟨h.trans hentries, fun d hd => hs d (h.mem_iff.1 hd)⟩

end Registry

/-! ### Declarations -/

/-- A series as it is declared to a registry. -/
structure Declaration where
  key : SeriesKey
  schema : Schema
  /-- Whether the registry has to look if the encoding can carry the type, or its caller has. -/
  checked : Bool
  deriving DecidableEq

namespace Declaration

/-- Whether nothing is wrong with the declaration itself. -/
def isAcceptable (d : Declaration) : Bool :=
  !d.checked || d.schema.isSupported

/-- The answer to a declaration that comes after others. -/
def answer (earlier : List Declaration) (d : Declaration) : Except Fault Unit :=
  if !d.isAcceptable then .error (.unsupportedPair d.schema.dataType d.schema.encoding)
  else if earlier.any fun e => e.isAcceptable && e.key = d.key then .error (.duplicateSeries d.key)
  else .ok ()

/-- The answers to declarations that come after others. -/
def answers (earlier : List Declaration) : List Declaration → List (Except Fault Unit)
  | [] => []
  | d :: ds => d.answer earlier :: answers (earlier ++ [d]) ds

/-- The declarations that were answered without a fault. -/
def accepted (ds : List Declaration) (answers : List (Except Fault Unit)) : List Declaration :=
  (ds.zip answers).filterMap fun (d, answer) => answer.toOption.map fun _ => d

/-- The first fault among answers. -/
def fault? (answers : List (Except Fault Unit)) : Option Fault :=
  answers.findSome? fun
    | .ok () => none
    | .error fault => some fault

def entry (d : Declaration) : SeriesKey × Schema :=
  (d.key, d.schema)

/-- Two declarations do not contradict each other: they are of different series, or one of them is
refused anyway, or they say the same. -/
def Agrees (a b : Declaration) : Prop :=
  a.isAcceptable → b.isAcceptable → a.key = b.key → a.schema = b.schema

instance (a b : Declaration) : Decidable (a.Agrees b) :=
  inferInstanceAs (Decidable (_ → _ → _ → _))

instance : Std.Symm Agrees where
  symm _ _ h hb ha hk := (h ha hb hk.symm).symm

/-- The declarations that builders make of the measurements of some devices. -/
def ofDevices (devices : List (String × List (String × Schema))) : List Declaration :=
  devices.flatMap fun (device, measurements) =>
    measurements.map fun (measurement, schema) => ⟨⟨device, measurement⟩, schema, true⟩

/-- Of declarations of different series each is found by its series. -/
theorem find?_eq_some_iff {ds : List Declaration} (h : (ds.map key).Nodup) {k : SeriesKey}
    {schema : Schema} : (ds.find? fun d => d.key = k).map Declaration.schema = some schema ↔
      (k, schema) ∈ ds.map entry := by
  induction ds with
  | nil => simp
  | cons d ds ih =>
    obtain ⟨hd, hds⟩ := List.nodup_cons.1 h
    rw [List.find?_cons, List.map_cons, List.mem_cons]
    by_cases hk : d.key = k
    · have hothers : (k, schema) ∉ ds.map entry := fun hmem => by
        obtain ⟨d', hd', heq⟩ := List.mem_map.1 hmem
        exact hd (hk ▸ List.mem_map.2 ⟨d', hd', (Prod.mk.inj heq).1⟩)
      simp [hk, hothers, entry, eq_comm]
    · have hne : (k, schema) ≠ d.entry := fun heq => hk (Prod.mk.inj heq).1.symm
      simp only [hk, decide_false, hne, false_or]
      exact ih hds

end Declaration

namespace Registry

/-- The answer to a declaration and the registry after it, which is the same as before if the
declaration is refused. -/
def declare (r : Registry) (d : Declaration) : Except Fault Unit × Registry :=
  match if d.checked then r.define d.key d.schema else r.add d.key d.schema with
  | .ok r' => (.ok (), r')
  | .error fault => (.error fault, r)

/-- The answers to declarations, one after another, and the registry after them. -/
def declareAll (r : Registry) : List Declaration → List (Except Fault Unit) × Registry
  | [] => ([], r)
  | d :: ds =>
    let (answer, r) := r.declare d
    let (answers, r) := declareAll r ds
    (answer :: answers, r)

/-! ### One declaration -/

/-- What becomes of a declaration, case by case. -/
theorem declare_eq (r : Registry) (d : Declaration) :
    r.declare d =
      if !d.isAcceptable then
        (.error (.unsupportedPair d.schema.dataType d.schema.encoding), r)
      else if r.contains d.key then (.error (.duplicateSeries d.key), r)
      else (.ok (), r.insert d.key d.schema) := by
  obtain ⟨key, schema, checked⟩ := d
  unfold declare define Schema.check add
  cases checked with
  | false => cases r.contains key <;> simp [Declaration.isAcceptable]
  | true =>
    cases hs : schema.isSupported with
    | false => simp [Declaration.isAcceptable, hs, bind, Except.bind]
    | true => cases r.contains key <;> simp [Declaration.isAcceptable, hs, bind, Except.bind]

variable (r : Registry)

/-- What is refused has not happened. -/
theorem declare_unchanged (d : Declaration) {fault : Fault} (h : (r.declare d).1 = .error fault) :
    (r.declare d).2 = r := by
  rw [declare_eq] at h ⊢
  split
  · rfl
  split
  · rfl
  · rename_i hd hnew
    rw [if_neg hd, if_neg hnew] at h
    contradiction

/-- A series that is there keeps its schema. -/
theorem find?_declare (d : Declaration) (key : SeriesKey) :
    (r.declare d).2.find? key =
      (r.find? key).or (if d.isAcceptable && d.key = key then some d.schema else none) := by
  rw [declare_eq]
  cases hd : d.isAcceptable with
  | false => simp
  | true =>
    simp only [Bool.not_true, Bool.false_eq_true, if_false, Bool.true_and, decide_eq_true_eq]
    split
    · rename_i hc
      -- Refused as a duplicate: the first definition stays.
      obtain ⟨schema, hschema⟩ := Option.isSome_iff_exists.1 hc
      by_cases hk : d.key = key
      · rw [← hk, hschema, Option.some_or]
      · rw [if_neg hk, Option.or_none]
    · rename_i hc
      have hnone : r.find? d.key = none := by simpa [SeriesTable.contains] using hc
      rw [SeriesTable.find?_insert]
      split
      · rename_i hk
        rw [← hk, hnone, Option.none_or]
      · rw [Option.or_none]

/-! ### Any number of declarations -/

/-- Of the acceptable declarations of a series the first decides. -/
theorem find?_declareAll (ds : List Declaration) (key : SeriesKey) :
    (r.declareAll ds).2.find? key =
      (r.find? key).or ((ds.find? fun d => d.isAcceptable && d.key = key).map (·.schema)) := by
  induction ds generalizing r with
  | nil => exact Option.or_none.symm
  | cons d ds ih =>
    show ((r.declare d).2.declareAll ds).2.find? key = _
    rw [ih, find?_declare, List.find?_cons, Option.or_assoc]
    cases d.isAcceptable && decide (d.key = key) <;> simp

/-- A declaration is answered by what was declared before. -/
theorem answers_declareAll {earlier : List Declaration}
    (h : ∀ key, r.contains key = earlier.any fun e => e.isAcceptable && e.key = key)
    (ds : List Declaration) : (r.declareAll ds).1 = Declaration.answers earlier ds := by
  induction ds generalizing r earlier with
  | nil => rfl
  | cons d ds ih =>
    have hanswer : (r.declare d).1 = d.answer earlier := by
      rw [declare_eq, h, Declaration.answer]
      split
      · rfl
      · split <;> rfl
    -- The registry contains what was declared acceptably so far.
    have hnext (key : SeriesKey) : (r.declare d).2.contains key =
        (earlier ++ [d]).any fun e => e.isAcceptable && e.key = key := by
      have hr := h key
      rw [SeriesTable.contains] at hr
      rw [SeriesTable.contains, find?_declare, Option.isSome_or, hr, List.any_append]
      cases hd : d.isAcceptable && decide (d.key = key) <;> simp [hd]
    show (r.declare d).1 :: ((r.declare d).2.declareAll ds).1 = _
    rw [hanswer, ih _ hnext, Declaration.answers]

/-- The accepted declarations are what a registry has more than before. -/
theorem entries_declareAll (ds : List Declaration) :
    (r.declareAll ds).2.entries.Perm
      (r.entries ++ (Declaration.accepted ds (r.declareAll ds).1).map Declaration.entry) := by
  induction ds generalizing r with
  | nil =>
    show r.entries.Perm (r.entries ++ [])
    rw [List.append_nil]
  | cons d ds ih =>
    have hrest := ih (r.declare d).2
    show ((r.declare d).2.declareAll ds).2.entries.Perm (r.entries ++
      (Declaration.accepted (d :: ds) ((r.declare d).1 :: ((r.declare d).2.declareAll ds).1)).map
        Declaration.entry)
    cases hanswer : (r.declare d).1 with
    | error fault =>
      rw [r.declare_unchanged d hanswer] at hrest ⊢
      exact hrest
    | ok done =>
      -- An accepted declaration adds its entry.
      have hinsert : (r.declare d).2.entries.Perm (r.entries ++ [d.entry]) := by
        rw [declare_eq] at hanswer ⊢
        split at hanswer
        · contradiction
        split at hanswer
        · contradiction
        rename_i hd hnew
        rw [if_neg hd, if_neg hnew]
        have hnew := SeriesTable.contains_eq_false_iff.1 (Bool.eq_false_iff.2 hnew)
        exact (SeriesTable.perm_place hnew).trans (List.perm_append_singleton _ _).symm
      refine hrest.trans ((hinsert.append_right _).trans ?_)
      rw [List.append_assoc]
      exact .refl _

/-! ### Declarations in any order -/

/-- What a registry has of a series does not depend on the order of declarations that agree. -/
theorem declareAll_perm {ds ds' : List Declaration} (hperm : ds'.Perm ds)
    (hagree : ds.Pairwise Declaration.Agrees) : (r.declareAll ds').2 = (r.declareAll ds).2 := by
  have hagree {a b : Declaration} (ha : a ∈ ds) (hb : b ∈ ds) : a.Agrees b :=
    hagree.forall_of_forall (fun _ _ _ _ _ => rfl) ha hb
  apply SeriesTable.ext_find?
  intro key
  rw [find?_declareAll, find?_declareAll]
  congr 1
  -- In either order some acceptable declaration of the series comes first, and they agree.
  let declares (d : Declaration) : Bool := d.isAcceptable && d.key = key
  show (ds'.find? declares).map (·.schema) = (ds.find? declares).map (·.schema)
  cases hd : ds.find? declares with
  | none =>
    have hnone : ds'.find? declares = none := by
      rw [List.find?_eq_none] at hd ⊢
      exact fun d hmem => hd d (hperm.mem_iff.1 hmem)
    rw [hnone]
  | some d =>
    have hmem := List.mem_of_find?_eq_some hd
    have hdeclares := List.find?_some hd
    cases hd' : ds'.find? declares with
    | none => exact absurd hdeclares (List.find?_eq_none.1 hd' d (hperm.mem_iff.2 hmem))
    | some d' =>
      have hmem' := hperm.mem_iff.1 (List.mem_of_find?_eq_some hd')
      simp only [declares, Bool.and_eq_true, decide_eq_true_eq] at hdeclares
      obtain ⟨hok', hkey'⟩ : d'.isAcceptable ∧ d'.key = key := by
        simpa only [declares, Bool.and_eq_true, decide_eq_true_eq] using List.find?_some hd'
      exact congrArg some (hagree hmem' hmem hok' hdeclares.1 (hkey'.trans hdeclares.2.symm))

/-! ### Builders -/

/-- Declaring one after another up to the first fault gives the registry of all declarations, or the
first fault among their answers. -/
theorem foldlM_define_eq (definitions : List (SeriesKey × Schema)) :
    definitions.foldlM (fun r (key, schema) => r.define key schema) r =
      let run := r.declareAll (definitions.map fun (key, schema) => ⟨key, schema, true⟩)
      match Declaration.fault? run.1 with
      | none => .ok run.2
      | some fault => .error fault := by
  induction definitions generalizing r with
  | nil => rfl
  | cons d definitions ih =>
    obtain ⟨key, schema⟩ := d
    rw [List.foldlM_cons]
    cases hd : r.define key schema with
    | error fault =>
      have hdeclare : r.declare ⟨key, schema, true⟩ = (.error fault, r) := by
        simp only [declare, if_true, hd]
      simp only [List.map_cons, declareAll, hdeclare, hd]
      rfl
    | ok r' =>
      have hdeclare : r.declare ⟨key, schema, true⟩ = (.ok (), r') := by
        simp only [declare, if_true, hd]
      simp only [List.map_cons, declareAll, hdeclare, hd]
      exact ih r'

/-- Builders make the declarations of the measurements in order, and end with the first fault. -/
theorem ofDevices_eq (devices : List (String × List (String × Schema))) :
    ofDevices devices =
      let run := declareAll SeriesTable.empty (Declaration.ofDevices devices)
      match Declaration.fault? run.1 with
      | none => .ok run.2
      | some fault => .error fault := by
  rw [ofDevices, ofDefinitions, foldlM_define_eq, List.map_flatMap]
  simp only [List.map_map, Declaration.ofDevices]
  rfl

/-- A builder goes on from the devices that it has, and a fault among them stays. -/
theorem ofDevices_concat (devices : List (String × List (String × Schema))) (device : String)
    (measurements : List (String × Schema)) :
    ofDevices (devices ++ [(device, measurements)]) = ofDevices devices >>= fun r =>
      measurements.foldlM (fun r (measurement, schema) => r.define ⟨device, measurement⟩ schema)
        r := by
  simp only [ofDevices, ofDefinitions, List.flatMap_append, List.flatMap_singleton,
    List.foldlM_append, List.foldlM_map]

end Registry

end SeriesFile
