import SeriesFile.Bytes.Reader
import SeriesFile.Series.Key

/-!
# Tables by series

A `SeriesTable` gives something to some series. Its entries stand in the order of the series, each
series once, so two tables that give the same to the same series are equal (`ext_find?`).
-/

namespace SeriesFile

/-- Something for each of some series, in the order of the series. -/
structure SeriesTable (α : Type) where
  /-- The series with what they are given. -/
  entries : List (SeriesKey × α)
  /-- The entries ascend, and no series occurs twice. -/
  ascending : entries.Pairwise fun a b => compare a.1 b.1 = .lt

namespace SeriesTable

variable {α β : Type}

instance [DecidableEq α] : DecidableEq (SeriesTable α) := fun a b =>
  match decEq a.entries b.entries with
  | .isTrue h => .isTrue (by cases a; cases b; cases h; rfl)
  | .isFalse h => .isFalse (fun e => h (congrArg entries e))

def empty : SeriesTable α := ⟨[], .nil⟩

instance : EmptyCollection (SeriesTable α) := ⟨empty⟩

def size (t : SeriesTable α) : Nat :=
  t.entries.length

def keys (t : SeriesTable α) : List SeriesKey :=
  t.entries.map Prod.fst

/-- What the series are given, in the order of the series. -/
def values (t : SeriesTable α) : List α :=
  t.entries.map Prod.snd

def find? (t : SeriesTable α) (key : SeriesKey) : Option α :=
  (t.entries.find? fun entry => entry.1 = key).map Prod.snd

def contains (t : SeriesTable α) (key : SeriesKey) : Bool :=
  (t.find? key).isSome

/-- Places an entry among ascending ones, instead of the one for the same series. -/
def place (key : SeriesKey) (a : α) : List (SeriesKey × α) → List (SeriesKey × α)
  | [] => [(key, a)]
  | entry :: rest =>
    match compare key entry.1 with
    | .lt => (key, a) :: entry :: rest
    | .eq => (key, a) :: rest
    | .gt => entry :: place key a rest

theorem mem_place {key : SeriesKey} {a : α} {entries : List (SeriesKey × α)}
    {x : SeriesKey × α} (h : x ∈ place key a entries) : x = (key, a) ∨ x ∈ entries := by
  induction entries with
  | nil => simpa [place] using h
  | cons entry rest ih =>
    simp only [place] at h
    split at h
    · simpa using h
    · rcases List.mem_cons.1 h with h | h
      · exact .inl h
      · exact .inr (.tail _ h)
    · rcases List.mem_cons.1 h with h | h
      · exact .inr (h ▸ .head _)
      · exact (ih h).imp_right (.tail _)

theorem ascending_place {key : SeriesKey} {a : α} {entries : List (SeriesKey × α)}
    (h : entries.Pairwise fun a b => compare a.1 b.1 = .lt) :
    (place key a entries).Pairwise fun a b => compare a.1 b.1 = .lt := by
  induction entries with
  | nil => simp [place]
  | cons entry rest ih =>
    obtain ⟨first, others⟩ := List.pairwise_cons.1 h
    simp only [place]
    split
    · rename_i hlt
      refine List.pairwise_cons.2 ⟨?_, h⟩
      intro x hx
      rcases List.mem_cons.1 hx with rfl | hx
      · exact hlt
      · exact Std.TransCmp.lt_trans hlt (first x hx)
    · rename_i heq
      have heq : key = entry.1 := Std.LawfulEqCmp.eq_of_compare heq
      exact List.pairwise_cons.2 ⟨fun x hx => heq ▸ first x hx, others⟩
    · rename_i hgt
      refine List.pairwise_cons.2 ⟨?_, ih others⟩
      intro x hx
      rcases mem_place hx with rfl | hx
      · exact Std.OrientedCmp.gt_iff_lt.1 hgt
      · exact first x hx

/-- Gives something to a series, instead of what it had before. -/
def insert (t : SeriesTable α) (key : SeriesKey) (a : α) : SeriesTable α :=
  ⟨place key a t.entries, ascending_place t.ascending⟩

theorem ascending_map (f : α → β) {entries : List (SeriesKey × α)}
    (h : entries.Pairwise fun a b => compare a.1 b.1 = .lt) :
    (entries.map fun entry => (entry.1, f entry.2)).Pairwise fun a b => compare a.1 b.1 = .lt :=
  List.pairwise_map.2 h

def map (f : α → β) (t : SeriesTable α) : SeriesTable β :=
  ⟨t.entries.map fun entry => (entry.1, f entry.2), ascending_map f t.ascending⟩

/-! ### Looking up -/

/-- Of a series that comes before all others there is no entry. -/
theorem lookup_eq_none {key : SeriesKey} {entries : List (SeriesKey × α)}
    (h : ∀ entry ∈ entries, compare key entry.1 = .lt) :
    entries.find? (fun entry => entry.1 = key) = none := by
  rw [List.find?_eq_none]
  intro entry he hk
  have := h entry he
  rw [of_decide_eq_true hk, show compare key key = .eq from Std.ReflCmp.compare_self] at this
  contradiction

theorem lookup_place (key : SeriesKey) (a : α) (k : SeriesKey) (entries : List (SeriesKey × α)) :
    (place key a entries).find? (fun entry => entry.1 = k) =
      if key = k then some (key, a) else entries.find? fun entry => entry.1 = k := by
  induction entries with
  | nil => by_cases hk : key = k <;> simp [place, hk]
  | cons entry rest ih =>
    simp only [place]
    split
    · by_cases hk : key = k <;> simp [List.find?_cons, hk]
    · rename_i heq
      have heq : key = entry.1 := Std.LawfulEqCmp.eq_of_compare heq
      by_cases hk : key = k <;> simp [← heq, hk]
    · rename_i hgt
      have hne : entry.1 ≠ key := by
        intro e
        rw [e, show compare key key = .eq from Std.ReflCmp.compare_self] at hgt
        contradiction
      by_cases hk : key = k
      · subst hk
        simp [hne, ih]
      · simp [List.find?_cons, hk, ih]

@[simp]
theorem find?_empty (k : SeriesKey) : (empty : SeriesTable α).find? k = none := rfl

theorem find?_insert (t : SeriesTable α) (key k : SeriesKey) (a : α) :
    (t.insert key a).find? k = if key = k then some a else t.find? k := by
  simp only [find?, insert, lookup_place]
  split <;> rfl

@[simp]
theorem find?_map (f : α → β) (t : SeriesTable α) (k : SeriesKey) :
    (t.map f).find? k = (t.find? k).map f := by
  simp only [find?, map, List.find?_map, Option.map_map]
  rfl

theorem find?_eq_some_iff {t : SeriesTable α} {key : SeriesKey} {a : α} :
    t.find? key = some a ↔ (key, a) ∈ t.entries := by
  constructor
  · intro h
    obtain ⟨entry, hf, rfl⟩ := Option.map_eq_some_iff.1 h
    have hk : entry.1 = key := by simpa using List.find?_some hf
    exact hk ▸ List.mem_of_find?_eq_some hf
  · intro h
    obtain ⟨others, rest, heq, hothers⟩ : ∃ others rest, t.entries = others ++ (key, a) :: rest ∧
        ∀ entry ∈ others, ¬entry.1 = key := by
      obtain ⟨others, rest, heq⟩ := List.append_of_mem h
      refine ⟨others, rest, heq, ?_⟩
      intro entry he hk
      have hlt := t.ascending
      rw [heq, List.pairwise_append] at hlt
      have := hlt.2.2 entry he (key, a) (.head _)
      rw [hk, show compare key key = .eq from Std.ReflCmp.compare_self] at this
      contradiction
    rw [find?, heq, List.find?_append, List.find?_eq_none.2 (by simpa using hothers)]
    simp

/-- An entry is replaced where it stands. -/
theorem place_at {key : SeriesKey} {a : α} {front back : List (SeriesKey × α)}
    (h : (front ++ (key, a) :: back).Pairwise fun a b => compare a.1 b.1 = .lt) (a' : α) :
    place key a' (front ++ (key, a) :: back) = front ++ (key, a') :: back := by
  induction front with
  | nil =>
    have hsame : compare key key = .eq := Std.ReflCmp.compare_self
    simp only [List.nil_append, place, hsame]
  | cons entry front ih =>
    obtain ⟨hfirst, hrest⟩ := List.pairwise_cons.1 h
    have hgt : compare key entry.1 = .gt :=
      Std.OrientedCmp.gt_iff_lt.2 (hfirst (key, a) (List.mem_append_right _ (.head _)))
    simp only [List.cons_append, place, hgt, ih hrest]

theorem entries_insert {t : SeriesTable α} {key : SeriesKey} {a : α} (h : t.find? key = some a) :
    ∃ front back, t.entries = front ++ (key, a) :: back ∧
      ∀ a', (t.insert key a').entries = front ++ (key, a') :: back := by
  obtain ⟨front, back, heq⟩ := List.append_of_mem (find?_eq_some_iff.1 h)
  refine ⟨front, back, heq, fun a' => ?_⟩
  show place key a' t.entries = _
  rw [heq]
  exact place_at (heq ▸ t.ascending) a'

/-- Of a sum over a table only the part of the entry that is replaced changes. -/
theorem sum_insert {t : SeriesTable α} {key : SeriesKey} {a : α} (h : t.find? key = some a)
    (a' : α) (f : α → Nat) :
    ((t.insert key a').values.map f).sum + f a = (t.values.map f).sum + f a' := by
  obtain ⟨front, back, heq, hinsert⟩ := entries_insert h
  simp only [values, heq, hinsert, List.map_append, List.map_cons, List.sum_append, List.sum_cons]
  omega

theorem le_sum {t : SeriesTable α} {key : SeriesKey} {a : α} (h : t.find? key = some a)
    (f : α → Nat) : f a ≤ (t.values.map f).sum := by
  obtain ⟨front, back, heq, -⟩ := entries_insert h
  simp only [values, heq, List.map_append, List.map_cons, List.sum_append, List.sum_cons]
  omega

theorem mem_values_iff {t : SeriesTable α} {a : α} :
    a ∈ t.values ↔ ∃ key, t.find? key = some a := by
  simp only [values, List.mem_map, find?_eq_some_iff, Prod.exists, exists_eq_right]

theorem sum_congr {t : SeriesTable α} {f g : α → Nat}
    (h : ∀ key a, t.find? key = some a → f a = g a) :
    (t.values.map f).sum = (t.values.map g).sum := by
  refine congrArg List.sum (List.map_congr_left fun a ha => ?_)
  obtain ⟨key, hkey⟩ := mem_values_iff.1 ha
  exact h key a hkey

theorem sum_eq_zero {t : SeriesTable α} {f : α → Nat}
    (h : ∀ key a, t.find? key = some a → f a = 0) : (t.values.map f).sum = 0 := by
  rw [sum_congr h, List.sum_eq_zero_iff_forall_eq_nat]
  intro n hn
  obtain ⟨a, -, rfl⟩ := List.mem_map.1 hn
  rfl

theorem mem_keys_iff {t : SeriesTable α} {key : SeriesKey} :
    key ∈ t.keys ↔ ∃ a, t.find? key = some a := by
  simp only [keys, List.mem_map, find?_eq_some_iff, Prod.exists]
  exact ⟨fun ⟨_, a, h, hk⟩ => ⟨a, hk ▸ h⟩, fun ⟨a, h⟩ => ⟨key, a, h, rfl⟩⟩

theorem keys_ascend (t : SeriesTable α) : t.keys.Pairwise fun a b => compare a b = .lt :=
  List.pairwise_map.2 t.ascending

theorem nodup_keys (t : SeriesTable α) : t.keys.Nodup := by
  refine t.keys_ascend.imp fun {a b} h heq => ?_
  rw [heq, show compare b b = .eq from Std.ReflCmp.compare_self] at h
  contradiction

/-- The series of a table are some of another's if they are the same ones, whatever the order. -/
theorem keys_eq_filter {t : SeriesTable α} {u : SeriesTable β} {p : SeriesKey → Bool}
    (h : ∀ key, key ∈ t.keys ↔ key ∈ u.keys ∧ p key) : t.keys = u.keys.filter p := by
  have hperm : t.keys.Perm (u.keys.filter p) := by
    rw [List.perm_ext_iff_of_nodup t.nodup_keys (u.nodup_keys.filter p)]
    simpa only [List.mem_filter] using h
  refine hperm.eq_of_pairwise (fun a b _ _ hab hba => ?_) t.keys_ascend (u.keys_ascend.filter p)
  rw [Std.OrientedCmp.gt_iff_lt.2 hab] at hba
  contradiction

/-- Ascending entries are the same if every look-up in them is. -/
theorem eq_of_lookup_eq {entries others : List (SeriesKey × α)}
    (h : entries.Pairwise fun a b => compare a.1 b.1 = .lt)
    (h' : others.Pairwise fun a b => compare a.1 b.1 = .lt)
    (same : ∀ k, (entries.find? fun entry => entry.1 = k) = others.find? fun entry => entry.1 = k) :
    entries = others := by
  induction entries generalizing others with
  | nil =>
    cases others with
    | nil => rfl
    | cons e _ => simpa using same e.1
  | cons entry rest ih =>
    obtain ⟨first, ascends⟩ := List.pairwise_cons.1 h
    cases others with
    | nil => simpa using same entry.1
    | cons other rest' =>
      obtain ⟨first', ascends'⟩ := List.pairwise_cons.1 h'
      have hentry : entry = other := by
        rcases hc : compare entry.1 other.1 with _ | _ | _
        · have hn : (other :: rest').find? (fun e => e.1 = entry.1) = none := by
            apply lookup_eq_none
            intro e he
            rcases List.mem_cons.1 he with rfl | he
            · exact hc
            · exact Std.TransCmp.lt_trans hc (first' e he)
          simpa [hn] using same entry.1
        · have hk : entry.1 = other.1 := Std.LawfulEqCmp.eq_of_compare hc
          simpa [hk] using same entry.1
        · have hc : compare other.1 entry.1 = .lt := Std.OrientedCmp.gt_iff_lt.1 hc
          have hn : (entry :: rest).find? (fun e => e.1 = other.1) = none := by
            apply lookup_eq_none
            intro e he
            rcases List.mem_cons.1 he with rfl | he
            · exact hc
            · exact Std.TransCmp.lt_trans hc (first e he)
          simpa [hn] using same other.1
      subst hentry
      congr 1
      apply ih ascends ascends'
      intro k
      by_cases hk : entry.1 = k
      · rw [← hk, lookup_eq_none first, lookup_eq_none first']
      · simpa [List.find?_cons, hk] using same k

/-- A table is known by what every series is given. -/
theorem ext_find? {t u : SeriesTable α} (h : ∀ k, t.find? k = u.find? k) : t = u := by
  suffices he : t.entries = u.entries by
    cases t
    cases u
    cases he
    rfl
  have lookup (v : SeriesTable α) (k : SeriesKey) :
      (v.entries.find? fun entry => entry.1 = k) = (v.find? k).map fun a => (k, a) := by
    rcases hv : v.entries.find? (fun entry => entry.1 = k) with _ | ⟨k', a⟩
    · rw [find?, hv]
      rfl
    · have hk : k' = k := by simpa using List.find?_some hv
      rw [find?, hv, hk]
      rfl
  exact eq_of_lookup_eq t.ascending u.ascending fun k => by rw [lookup, lookup, h]

/-- Different series may be given something in either order. -/
theorem insert_comm {t : SeriesTable α} {key k : SeriesKey} (h : key ≠ k) (a a' : α) :
    (t.insert key a).insert k a' = (t.insert k a').insert key a := by
  apply ext_find?
  intro other
  simp only [find?_insert]
  by_cases hk : k = other
  · subst hk
    rw [if_pos rfl, if_neg h, if_pos rfl]
  · rw [if_neg hk, if_neg hk]

/-! ### The order of entries -/

/-- An entry for a new series is added to the others. -/
theorem perm_place {key : SeriesKey} {a : α} {entries : List (SeriesKey × α)}
    (h : ∀ entry ∈ entries, key ≠ entry.1) : (place key a entries).Perm ((key, a) :: entries) := by
  induction entries with
  | nil => exact .refl _
  | cons entry rest ih =>
    simp only [place]
    split
    · exact .refl _
    · rename_i heq
      exact absurd (Std.LawfulEqCmp.eq_of_compare heq) (h entry (.head _))
    · have hrest := ih fun other ho => h other (.tail _ ho)
      exact (hrest.cons entry).trans (.swap _ _ _)

theorem eq_of_perm {t u : SeriesTable α} (h : t.entries.Perm u.entries) : t = u := by
  apply ext_find?
  intro key
  apply Option.ext
  intro a
  rw [find?_eq_some_iff, find?_eq_some_iff]
  exact h.mem_iff

theorem contains_eq_false_iff {t : SeriesTable α} {key : SeriesKey} :
    t.contains key = false ↔ ∀ entry ∈ t.entries, key ≠ entry.1 := by
  rw [contains, Option.isSome_eq_false_iff, Option.isNone_iff_eq_none,
    Option.eq_none_iff_forall_ne_some]
  constructor
  · rintro h ⟨_, a⟩ he rfl
    exact h a (find?_eq_some_iff.2 he)
  · intro h a ha
    exact h (key, a) (find?_eq_some_iff.1 ha) rfl

theorem pairwise_ne (t : SeriesTable α) : t.entries.Pairwise fun a b => a.1 ≠ b.1 :=
  List.pairwise_map.1 t.nodup_keys

end SeriesTable

end SeriesFile
