import Mathlib.Data.List.Sort
import SeriesFile.Proofs.Delivering

/-!
# Relieving pressure

When too much is buffered, the largest buffers are written, one after another, until the bound is
met. Which ones these are can be told before the first is written: a flush empties one buffer and
leaves the sizes of the others, so they are the front of all series that have points, ordered by
size and, where sizes are equal, by name (`victims`). The loop ends as the bound is met, never for
want of a buffer (`Evicts`).

No choice of fewer buffers would do (`Frugal`): as many buffers as are chosen take up no more than
the same number of the largest ones (`sum_le_sum_take`).
-/

namespace SeriesFile

/-! ### The largest first -/

section

variable {α : Type} {size size' : α → Nat} {bound total : Nat} {keys : List α}

/-- Of some keys with sizes the first ones, as many as must go until the total is within the
bound. -/
def shed (size : α → Nat) (bound : Nat) : (total : Nat) → List α → List α
  | _, [] => []
  | total, key :: keys =>
    if total ≤ bound then [] else key :: shed size bound (total - size key) keys

/-- Within the bound nothing must go. -/
theorem shed_of_le (h : total ≤ bound) : shed size bound total keys = [] := by
  cases keys with
  | nil => rfl
  | cons key keys => exact if_pos h

/-- What must go is in front. -/
theorem shed_front (size : α → Nat) (bound total : Nat) (keys : List α) :
    shed size bound total keys <+: keys := by
  induction keys generalizing total with
  | nil => exact List.prefix_rfl
  | cons key keys ih =>
    unfold shed
    split
    · exact List.nil_prefix
    · exact List.cons_prefix_cons.2 ⟨rfl, ih _⟩

/-- Only the sizes of the keys matter. -/
theorem shed_congr (h : ∀ key ∈ keys, size key = size' key) :
    shed size bound total keys = shed size' bound total keys := by
  induction keys generalizing total with
  | nil => rfl
  | cons key keys ih =>
    rw [shed, shed, h key (.head _), ih fun k hk => h k (.tail _ hk)]

/-- Fewer of the first keys would not do. -/
theorem lt_of_lt_length_shed {n : Nat} (h : n < (shed size bound total keys).length) :
    bound + ((keys.take n).map size).sum < total := by
  induction keys generalizing total n with
  | nil => exact absurd h (Nat.not_lt_zero n)
  | cons key keys ih =>
    unfold shed at h
    split at h
    · exact absurd h (Nat.not_lt_zero n)
    -- The first had to go because the bound was not met.
    rename_i hover
    cases n with
    | zero => simpa using hover
    | succ n =>
      have hrest := ih (Nat.lt_of_succ_lt_succ h)
      rw [List.take_succ_cons, List.map_cons, List.sum_cons]
      omega

/-- As many keys as are chosen, of those in a list that descends by size, are no larger than the
first ones of the list. Keys without a size may be chosen from anywhere. -/
theorem sum_le_sum_take [DecidableEq α] (h : keys.Pairwise fun a b => size b ≤ size a)
    {choice : List α} (hchoice : choice.Nodup) (hmem : ∀ key ∈ choice, key ∈ keys ∨ size key = 0) :
    (choice.map size).sum ≤ ((keys.take choice.length).map size).sum := by
  induction keys generalizing choice with
  | nil =>
    have hzero : (choice.map size).sum = 0 := by
      apply List.sum_eq_zero_iff_forall_eq_nat.2
      intro n hn
      obtain ⟨key, hkey, rfl⟩ := List.mem_map.1 hn
      exact (hmem key hkey).resolve_left List.not_mem_nil
    rw [hzero]
    exact Nat.zero_le _
  | cons first keys ih =>
    obtain ⟨hfirst, hkeys⟩ := List.pairwise_cons.1 h
    by_cases hin : first ∈ choice
    · -- The first of the list was chosen. Without it the others are compared with the rest of the
      -- list.
      have hperm := List.perm_cons_erase hin
      have hrest := ih hkeys (hchoice.erase first) fun key hkey => by
        obtain ⟨hne, hkey⟩ := hchoice.mem_erase_iff.1 hkey
        exact (hmem key hkey).imp_left fun hcons => (List.mem_cons.1 hcons).resolve_left hne
      rw [(hperm.map size).sum_nat, hperm.length_eq, List.length_cons, List.take_succ_cons,
        List.map_cons, List.map_cons, List.sum_cons, List.sum_cons]
      omega
    · cases choice with
      | nil => exact Nat.zero_le _
      | cons key choice =>
        -- The first of the list takes the place of one that was chosen instead of it.
        obtain ⟨hnotIn, hchoice⟩ := List.nodup_cons.1 hchoice
        have hothers : ∀ k ∈ key :: choice, k ∈ keys ∨ size k = 0 := by
          intro k hk
          have hne : k ≠ first := by
            rintro rfl
            exact hin hk
          exact (hmem k hk).imp_left fun hcons => (List.mem_cons.1 hcons).resolve_left hne
        have hle : size key ≤ size first := by
          rcases hothers key (.head _) with hkey | hzero
          · exact hfirst key hkey
          · rw [hzero]
            exact Nat.zero_le _
        have hrest := ih hkeys hchoice fun k hk => hothers k (.tail _ hk)
        rw [List.length_cons, List.take_succ_cons, List.map_cons, List.map_cons, List.sum_cons,
          List.sum_cons]
        omega

end

namespace Writer

variable {σ : Type} {w w₁ w' : Writer σ} {key k : SeriesKey} {keys : List SeriesKey}

/-! ### Ranking the buffers -/

/-- The bytes that the buffered points of a series take up. -/
def size (w : Writer σ) (key : SeriesKey) : Nat :=
  ((w.buffers.find? key).map Buffer.rawBytes).getD 0

/-- The buffer of a series has more bytes than another, or as many and the smaller name. -/
def Before (w : Writer σ) (a b : SeriesKey) : Prop :=
  w.size b < w.size a ∨ w.size a = w.size b ∧ compare a b = .lt

/-- The first series is the second or comes before it. -/
def NotAfter (w : Writer σ) (a b : SeriesKey) : Prop :=
  a = b ∨ w.Before a b

instance (w : Writer σ) : DecidableRel w.NotAfter := fun a b =>
  inferInstanceAs (Decidable (a = b ∨ w.size b < w.size a ∨ w.size a = w.size b ∧ compare a b = .lt))

/-- What comes before is transitive: by size, and then by name. -/
theorem Before.trans {a b c : SeriesKey} (h : w.Before a b) (h' : w.Before b c) : w.Before a c := by
  rcases h with hsize | ⟨hsize, hname⟩
  · left
    rcases h' with hsize' | ⟨hsize', -⟩ <;> omega
  · rcases h' with hsize' | ⟨hsize', hname'⟩
    · left
      omega
    · exact .inr ⟨hsize.trans hsize', Std.TransCmp.lt_trans hname hname'⟩

/-- Of two series only one comes before the other. -/
theorem Before.asymm {a b : SeriesKey} (h : w.Before a b) : ¬w.Before b a := by
  rcases h with hsize | ⟨hsize, hname⟩
  · rintro (hsize' | ⟨hsize', -⟩) <;> omega
  · rintro (hsize' | ⟨-, hname'⟩)
    · omega
    · rw [Std.OrientedCmp.gt_iff_lt.2 hname] at hname'
      contradiction

/-- A series before another is no smaller. -/
theorem Before.size_le {a b : SeriesKey} (h : w.Before a b) : w.size b ≤ w.size a := by
  rcases h with hsize | ⟨hsize, -⟩ <;> omega

/-- The order of the ranking is transitive. -/
theorem NotAfter.trans {a b c : SeriesKey} (h : w.NotAfter a b) (h' : w.NotAfter b c) :
    w.NotAfter a c := by
  rcases h with rfl | h
  · exact h'
  · rcases h' with rfl | h'
    · exact .inr h
    · exact .inr (h.trans h')

/-- Of two series one does not come after the other, since names decide where sizes are equal. -/
theorem notAfter_total (w : Writer σ) (a b : SeriesKey) : w.NotAfter a b ∨ w.NotAfter b a := by
  rcases Nat.lt_trichotomy (w.size a) (w.size b) with hsize | hsize | hsize
  · exact .inr (.inr (.inl hsize))
  · cases hname : compare a b with
    | lt => exact .inl (.inr (.inr ⟨hsize, hname⟩))
    | eq => exact .inl (.inl (Std.LawfulEqCmp.eq_of_compare hname))
    | gt => exact .inr (.inr (.inr ⟨hsize.symm, Std.OrientedCmp.gt_iff_lt.1 hname⟩))
  · exact .inl (.inr (.inl hsize))

instance (w : Writer σ) : IsTrans SeriesKey w.NotAfter := ⟨fun _ _ _ => NotAfter.trans⟩

instance (w : Writer σ) : Std.Total w.NotAfter := ⟨w.notAfter_total⟩

/-- The series that have points, each before those that come after it. -/
structure Ranked (w : Writer σ) (keys : List SeriesKey) : Prop where
  ordered : keys.Pairwise w.Before
  mem_iff : ∀ key, key ∈ keys ↔ w.Filled key

/-- The series that have points, the largest first. -/
def ranking (w : Writer σ) : List SeriesKey :=
  w.pending.insertionSort w.NotAfter

/-- The ranking is a ranking: it is sorted, and has every series with points once. -/
theorem ranked_ranking (w : Writer σ) : w.Ranked w.ranking := by
  constructor
  · have hsorted : w.ranking.Pairwise w.NotAfter := List.pairwise_insertionSort w.NotAfter w.pending
    have hnodup : w.ranking.Nodup := (List.perm_insertionSort _ _).nodup_iff.2 w.nodup_pending
    exact hsorted.imp₂ (fun a b hle hne => hle.resolve_left hne) hnodup
  · intro key
    rw [ranking, List.mem_insertionSort, mem_pending_iff]

/-- The series that are written when too much is buffered, in their order. -/
def victims (w : Writer σ) : List SeriesKey :=
  match w.options.pressurePolicy with
  | .flushAll => w.pending
  | .flushLargest => shed w.size w.options.maxBufferedBytes w.bufferedBytes w.ranking

/-- Some series with points come before all others, and no choice of fewer would meet the bound. -/
structure Frugal (w : Writer σ) (keys : List SeriesKey) : Prop where
  few : keys.length ≤ w.pending.length
  ordered : keys.Pairwise w.Before
  first : ∀ key ∈ keys, ∀ other ∉ keys, w.Filled other → w.Before key other
  least : ∀ choice : List SeriesKey, choice.Nodup →
    w.bufferedBytes ≤ w.options.maxBufferedBytes + (choice.map w.size).sum →
      keys.length ≤ choice.length

/-! ### The largest buffer -/

/-- The better of two is one of the two. -/
theorem mem_larger {best : Option (SeriesKey × Nat)} {entry : SeriesKey × Buffer}
    {b : SeriesKey × Nat} (h : b ∈ larger best entry) :
    b ∈ best ∨ b = (entry.1, entry.2.rawBytes) := by
  unfold larger at h
  split at h
  · split at h
    · exact .inr (Option.some.inj h).symm
    · exact .inl h
  · split at h
    · exact .inr (Option.some.inj h).symm
    · contradiction

/-- Of the best buffer so far and another that comes later by name the one that comes first is
kept. -/
theorem notAfter_larger {best : Option (SeriesKey × Nat)} {entry : SeriesKey × Buffer}
    (hsize : entry.2.rawBytes = w.size entry.1)
    (hbest : ∀ b ∈ best, b.2 = w.size b.1 ∧ compare b.1 entry.1 = .lt) :
    (∀ b ∈ best, ∃ b' ∈ larger best entry, w.NotAfter b'.1 b.1) ∧
      (0 < entry.2.rawBytes → ∃ b' ∈ larger best entry, w.NotAfter b'.1 entry.1) := by
  cases best with
  | none =>
    refine ⟨fun b hb => by contradiction, fun hpos => ⟨(entry.1, entry.2.rawBytes), ?_, .inl rfl⟩⟩
    exact if_pos hpos
  | some b =>
    obtain ⟨hb, hname⟩ := hbest b rfl
    by_cases hlt : b.2 < entry.2.rawBytes
    · have hlarger : larger (some b) entry = some (entry.1, entry.2.rawBytes) := if_pos hlt
      rw [hlarger]
      refine ⟨fun b' hb' => ⟨_, rfl, .inr (.inl ?_)⟩, fun _ => ⟨_, rfl, .inl rfl⟩⟩
      obtain rfl := Option.some.inj hb'
      rwa [hb, hsize] at hlt
    · -- Not larger: the best so far stays, by its size or by its name.
      have hlarger : larger (some b) entry = some b := if_neg hlt
      rw [hlarger]
      refine ⟨fun b' hb' => ⟨b', hb', .inl rfl⟩, fun _ => ⟨b, rfl, .inr ?_⟩⟩
      rw [hb, hsize] at hlt
      rcases Nat.lt_or_eq_of_le (Nat.le_of_not_lt hlt) with hlt | heq
      · exact .inl hlt
      · exact .inr ⟨heq.symm, hname⟩

/-- The buffer that is found comes before all others that have bytes. The entries ascend, so of
buffers with equally many bytes the one that is met first is kept. -/
theorem notAfter_foldl_larger {entries : List (SeriesKey × Buffer)}
    {best : Option (SeriesKey × Nat)} {found : SeriesKey × Nat}
    (h : entries.foldl larger best = some found)
    (hascend : entries.Pairwise fun a b => compare a.1 b.1 = .lt)
    (hsize : ∀ entry ∈ entries, entry.2.rawBytes = w.size entry.1)
    (hbest : ∀ b ∈ best, b.2 = w.size b.1 ∧ ∀ entry ∈ entries, compare b.1 entry.1 = .lt) :
    (∀ b ∈ best, w.NotAfter found.1 b.1) ∧
      ∀ entry ∈ entries, 0 < entry.2.rawBytes → w.NotAfter found.1 entry.1 := by
  induction entries generalizing best with
  | nil =>
    refine ⟨fun b hb => .inl ?_, fun entry hmem => (List.not_mem_nil hmem).elim⟩
    exact congrArg Prod.fst (Option.some.inj (h.symm.trans hb))
  | cons entry entries ih =>
    obtain ⟨hfirst, hascend⟩ := List.pairwise_cons.1 hascend
    have hentry := hsize entry (.head _)
    obtain ⟨hold, hnew⟩ := notAfter_larger hentry fun b hb =>
      ⟨(hbest b hb).1, (hbest b hb).2 entry (.head _)⟩
    obtain ⟨hfound, hrest⟩ := ih h hascend (fun e he => hsize e (.tail _ he)) (by
      intro b hb
      rcases mem_larger hb with hb | rfl
      · exact ⟨(hbest b hb).1, fun e he => (hbest b hb).2 e (.tail _ he)⟩
      · -- If the entry itself is the best now, it comes before all that follow.
        exact ⟨hentry, hfirst⟩)
    constructor
    · intro b hb
      obtain ⟨b', hb', hle⟩ := hold b hb
      exact (hfound b' hb').trans hle
    · intro e he hpos
      rcases List.mem_cons.1 he with rfl | he
      · obtain ⟨b', hb', hle⟩ := hnew hpos
        exact (hfound b' hb').trans hle
      · exact hrest e he hpos

/-- The size of a series is that of its buffer. -/
theorem size_eq {b : Buffer} (h : w.buffers.find? key = some b) : w.size key = b.rawBytes := by
  rw [size, h]
  rfl

/-- The largest buffer comes before all others that have bytes. -/
theorem notAfter_of_largest? (h : w.largest? = some key) (hpos : 0 < w.size k) :
    w.NotAfter key k := by
  obtain ⟨found, hfold, rfl⟩ := Option.map_eq_some_iff.1 h
  cases hb : w.buffers.find? k with
  | none =>
    rw [size, hb] at hpos
    contradiction
  | some b =>
    rw [size_eq hb] at hpos
    refine (notAfter_foldl_larger hfold w.buffers.ascending ?_ fun b hb => by contradiction).2 (k, b)
      (SeriesTable.find?_eq_some_iff.1 hb) hpos
    intro entry hentry
    exact (size_eq (SeriesTable.find?_eq_some_iff.2 hentry)).symm

/-! ### One flush after another -/

variable [Sink σ] [Compressor] {o : Opening σ} {state : WriterState} {runs : List Run}
  {ledger : Ledger}

/-- As long as too much is buffered there is a largest buffer, and it is written. The series are
those that are written until the bound is met. -/
inductive Evicts : Writer σ → List SeriesKey → Writer σ → Prop
  | met {w : Writer σ} (bound : w.bufferedBytes ≤ w.options.maxBufferedBytes) : Evicts w [] w
  | flush {w w₁ w' : Writer σ} {key : SeriesKey} {keys : List SeriesKey}
      (above : w.options.maxBufferedBytes < w.bufferedBytes) (largest : w.largest? = some key)
      (flushed : flushSeries key w = .ok () w₁) (rest : Evicts w₁ keys w') :
      Evicts w (key :: keys) w'

namespace Evicts

/-- The loop ends after as many flushes. -/
theorem flushLargest_eq (h : Evicts w keys w') {limit : Nat} (hlimit : keys.length ≤ limit) :
    flushLargest limit w = .ok () w' := by
  induction h generalizing limit with
  | @met w bound =>
    cases limit with
    | zero => rfl
    | succ limit =>
      show (if w.bufferedBytes ≤ w.options.maxBufferedBytes then _ else _ : Action σ Unit) w = _
      rw [if_pos bound]
      rfl
  | @flush w w₁ w' key keys above largest flushed _ ih =>
    cases limit with
    | zero => contradiction
    | succ limit =>
      show (if w.bufferedBytes ≤ w.options.maxBufferedBytes then _ else _ : Action σ Unit) w = _
      rw [if_neg (Nat.not_le.2 above), largest]
      exact (bind_ok flushed).trans (ih (Nat.le_of_succ_le_succ hlimit))

/-- The same series may be flushed one after another without looking at the bound. -/
theorem forM_eq (h : Evicts w keys w') : keys.forM flushSeries w = .ok () w' := by
  induction h with
  | met _ => rfl
  | flush _ _ flushed _ ih => exact (bind_ok flushed).trans ih

end Evicts

omit [Sink σ] in
/-- Writing a buffer takes its bytes off what is buffered. -/
theorem Chunked.bufferedBytes_eq {run : Run} (h : Chunked run w w') :
    w'.bufferedBytes = w.bufferedBytes - w.size run.key := by
  obtain ⟨found⟩ := h
  rw [size_eq found]

omit [Sink σ] in
/-- Writing a buffer leaves the sizes of the others. -/
theorem Chunked.size_eq {run : Run} (h : Chunked run w w') (hk : k ≠ run.key) :
    w'.size k = w.size k := by
  rw [size, size, h.find?_of_ne hk]

omit [Sink σ] in
/-- Without the first series, which is written, the others are ranked as before. -/
theorem Ranked.chunked {run : Run} (h : w.Ranked (run.key :: keys)) (hchunk : Chunked run w w₁) :
    w₁.Ranked keys := by
  obtain ⟨hfirst, hordered⟩ := List.pairwise_cons.1 h.ordered
  -- The series that is written is not among the others.
  have hne : ∀ k ∈ keys, k ≠ run.key := by
    rintro k hk rfl
    exact (hfirst _ hk).asymm (hfirst _ hk)
  constructor
  · apply hordered.imp_of_mem
    intro a b ha hb hbefore
    rw [Before, hchunk.size_eq (hne a ha), hchunk.size_eq (hne b hb)]
    exact hbefore
  · intro k
    constructor
    · intro hk
      obtain ⟨b, hb, hfilled⟩ := (h.mem_iff k).1 (.tail _ hk)
      exact ⟨b, by rw [hchunk.find?_of_ne (hne k hk), hb], hfilled⟩
    · intro hk
      have hbefore := (Drains.single hchunk).filled hk
      refine (List.mem_cons.1 ((h.mem_iff k).2 hbefore)).resolve_left ?_
      rintro rfl
      exact hchunk.not_filled hk

namespace Holds

/-- What has points has bytes. -/
theorem size_pos (h : Holds o state runs ledger w) (hkey : w.Filled key) : 0 < w.size key := by
  obtain ⟨b, hb, hfilled⟩ := hkey
  rw [Writer.size_eq hb]
  obtain ⟨schema, accepted, -, -, hkeeps⟩ := h.keeps_buffer hb
  rw [hkeeps.counted]
  apply Buffer.costs_pos
  intro hnil
  have hlength := hkeeps.length_points
  rw [hnil] at hlength
  rw [Buffer.isEmpty, List.eq_nil_of_length_eq_zero hlength.symm] at hfilled
  contradiction

/-- What has no points has no bytes. -/
theorem size_eq_zero (h : Holds o state runs ledger w) (hkey : ¬w.Filled key) : w.size key = 0 := by
  cases hb : w.buffers.find? key with
  | none =>
    rw [size, hb]
    rfl
  | some b =>
    rw [size_eq hb, h.rawBytes_eq hb, Buffer.points_of_isEmpty (isEmpty_of_not_filled hkey hb)]
    rfl

/-- The largest buffer is that of the first series in the ranking. -/
theorem largest?_of_ranked (h : Holds o state runs ledger w) (hranked : w.Ranked (key :: keys)) :
    w.largest? = some key := by
  have hkey : w.Filled key := (hranked.mem_iff key).1 (.head _)
  cases hlargest : w.largest? with
  | none =>
    have hpos := h.size_pos hkey
    obtain ⟨b, hb, -⟩ := hkey
    rw [Writer.size_eq hb, largest?_eq_none hlargest hb] at hpos
    contradiction
  | some k =>
    obtain ⟨b, hb, hpos⟩ := largest?_eq_some hlargest
    have hk : w.Filled k := h.filled_of_rawBytes hb hpos
    -- Both are first: the one that is found and the one in the ranking.
    rcases notAfter_of_largest? hlargest (h.size_pos hkey) with rfl | hbefore
    · rfl
    · rcases List.mem_cons.1 ((hranked.mem_iff k).2 hk) with rfl | hmem
      · rfl
      · exact absurd hbefore ((List.pairwise_cons.1 hranked.ordered).1 k hmem).asymm

/-- On a sink that takes everything the first series of a ranking are written, as many as must
be. -/
theorem evicts {P : σ → Prop} (g : Sink.Generous P) (h : Holds o state runs ledger w)
    (hp : P w.output.sink) (hsupported : o.registry.IsSupported) (hranked : w.Ranked keys)
    (hfits : ∀ key ∈ shed w.size w.options.maxBufferedBytes w.bufferedBytes keys,
      w.packs key = true) :
    ∃ w', Evicts w (shed w.size w.options.maxBufferedBytes w.bufferedBytes keys) w' := by
  induction keys generalizing w runs with
  | nil =>
    refine ⟨w, .met ?_⟩
    have hempty : ∀ key, ¬w.Filled key := by
      intro key hfilled
      exact List.not_mem_nil ((hranked.mem_iff key).2 hfilled)
    rw [h.bufferedBytes_eq_zero hempty]
    exact Nat.zero_le _
  | cons key keys ih =>
    by_cases hmet : w.bufferedBytes ≤ w.options.maxBufferedBytes
    · rw [shed_of_le hmet]
      exact ⟨w, .met hmet⟩
    rw [shed, if_neg hmet] at hfits ⊢
    obtain ⟨w₁, hflush, hp₁, -, -⟩ := h.flushSeries_delivers g hp hsupported (hfits key (.head _))
    -- What comes first in the ranking has points, so a chunk is written.
    rcases h.flushSeries_cases hflush with ⟨hidle, -⟩ | ⟨run, rfl, hchunk, h₁⟩
    · exact absurd ((hranked.mem_iff key).1 (.head _)) hidle
    have hranked₁ := hranked.chunked hchunk
    have hne : ∀ k ∈ keys, k ≠ run.key := by
      rintro k hk rfl
      exact hchunk.not_filled ((hranked₁.mem_iff _).1 hk)
    -- After the flush the same series are left to be written.
    have hsame : shed w.size w.options.maxBufferedBytes (w.bufferedBytes - w.size run.key) keys =
        shed w₁.size w₁.options.maxBufferedBytes w₁.bufferedBytes keys := by
      rw [hchunk.options_eq, hchunk.bufferedBytes_eq]
      exact shed_congr fun k hk => (hchunk.size_eq (hne k hk)).symm
    rw [hsame] at hfits ⊢
    have hfits₁ : ∀ k ∈ shed w₁.size w₁.options.maxBufferedBytes w₁.bufferedBytes keys,
        w₁.packs k = true := by
      intro k hk
      rw [packs, hchunk.find?_of_ne (hne k ((shed_front _ _ _ _).subset hk))]
      exact hfits k (.tail _ hk)
    obtain ⟨w', hevicts⟩ := ih h₁ hp₁ hranked₁ hfits₁
    exact ⟨w', .flush (Nat.lt_of_not_le hmet) (h.largest?_of_ranked hranked) hflush hevicts⟩

/-- The front of the ranking that meets the bound is as short as can be. -/
theorem frugal_shed (h : Holds o state runs ledger w) :
    w.Frugal (shed w.size w.options.maxBufferedBytes w.bufferedBytes w.ranking) := by
  have hranked := w.ranked_ranking
  obtain ⟨rest, hrest⟩ := shed_front w.size w.options.maxBufferedBytes w.bufferedBytes w.ranking
  have hordered := hranked.ordered
  rw [← hrest] at hordered
  obtain ⟨hfront, -, hbehind⟩ := List.pairwise_append.1 hordered
  refine ⟨?_, hfront, ?_, ?_⟩
  · have hlength : w.ranking.length = w.pending.length := List.length_insertionSort _ _
    rw [← hlength]
    exact (shed_front _ _ _ _).length_le
  · intro key hkey other hother hfilled
    have hmem := (hranked.mem_iff other).2 hfilled
    rw [← hrest] at hmem
    exact hbehind key hkey other ((List.mem_append.1 hmem).resolve_left hother)
  · intro choice hchoice hmet
    by_contra hfewer
    -- Fewer than were chosen of the largest do not meet the bound, and no others take up more.
    have hless := lt_of_lt_length_shed (Nat.lt_of_not_le hfewer)
    have hlargest := sum_le_sum_take (hranked.ordered.imp Before.size_le) hchoice fun key _ => by
      by_cases hfilled : w.Filled key
      · exact .inl ((hranked.mem_iff key).2 hfilled)
      · exact .inr (h.size_eq_zero hfilled)
    omega

end Holds

/-! ### Either policy -/

/-- What relieving pressure has done: the buffers that were to be written are empty, the others are
as they were, and the bound is met. -/
structure Relieved (w w' : Writer σ) : Prop where
  flushed : w.victims.forM flushSeries w = .ok () w'
  emptied : ∀ key ∈ w.victims, w.Filled key ∧ ¬w'.Filled key
  kept : ∀ key ∉ w.victims, w'.buffers.find? key = w.buffers.find? key
  bound : w'.bufferedBytes ≤ w.options.maxBufferedBytes
  largest : w.options.pressurePolicy = .flushLargest → Evicts w w.victims w' ∧ w.Frugal w.victims
  all : w.options.pressurePolicy = .flushAll → w'.bufferedBytes = 0 ∧
    ∀ key b, w'.buffers.find? key = some b → b.isEmpty = true

/-- Above the bound the policy decides what is flushed. -/
theorem relievePressure_of_over (h : w.options.maxBufferedBytes < w.bufferedBytes) :
    relievePressure w =
      match w.options.pressurePolicy with
      | .flushAll => w.pending.forM flushSeries w
      | .flushLargest => flushLargest w.pending.length w := by
  show (if w.bufferedBytes ≤ w.options.maxBufferedBytes then _ else _ : Action σ Unit) w = _
  rw [if_neg (Nat.not_le.2 h)]
  cases w.options.pressurePolicy <;> rfl

omit [Sink σ] [Compressor] in
/-- What is written has points. -/
theorem filled_of_mem_victims (hkey : key ∈ w.victims) : w.Filled key := by
  unfold victims at hkey
  split at hkey
  · exact mem_pending_iff.1 hkey
  · exact (w.ranked_ranking.mem_iff key).1 ((shed_front _ _ _ _).subset hkey)

namespace Holds

/-- On a sink that takes everything pressure is relieved. -/
theorem relieved {P : σ → Prop} (g : Sink.Generous P) (h : Holds o state runs ledger w)
    (hp : P w.output.sink) (hsupported : o.registry.IsSupported)
    (hover : w.options.maxBufferedBytes < w.bufferedBytes)
    (hfits : ∀ key ∈ w.victims, w.packs key = true) :
    ∃ w', relievePressure w = .ok () w' ∧ Relieved w w' := by
  obtain ⟨w', hforM, -, hdrained, hempty⟩ := h.forM_flushSeries_delivers g hp hsupported hfits
  have hwritten : relievePressure w = .ok () w' ∧
      (w.options.pressurePolicy = .flushLargest →
        Evicts w w.victims w' ∧ w.Frugal w.victims) := by
    rw [relievePressure_of_over hover]
    cases hpolicy : w.options.pressurePolicy with
    | flushAll =>
      have hvictims : w.victims = w.pending := by rw [victims, hpolicy]
      exact ⟨hvictims ▸ hforM, nofun⟩
    | flushLargest =>
      have hvictims : w.victims =
          shed w.size w.options.maxBufferedBytes w.bufferedBytes w.ranking := by
        rw [victims, hpolicy]
      have hfrugal : w.Frugal w.victims := by
        rw [hvictims]
        exact h.frugal_shed
      obtain ⟨w'', hevicts⟩ := h.evicts g hp hsupported w.ranked_ranking (hvictims ▸ hfits)
      rw [← hvictims] at hevicts
      -- The loop writes the victims in their order, so both end alike.
      obtain rfl : w'' = w' := by
        have hsame := hevicts.forM_eq.symm.trans hforM
        injection hsame
      exact ⟨hevicts.flushLargest_eq hfrugal.few, fun _ => ⟨hevicts, hfrugal⟩⟩
  have hbound := h.relievePressure_ends.of_ok hwritten.1
  rw [← h.options_eq] at hbound
  refine ⟨w', hwritten.1, hforM, fun key hkey => ⟨filled_of_mem_victims hkey, hempty key hkey⟩,
    fun key hkey => h.find?_forM_flushSeries hforM hkey, hbound.2, hwritten.2, ?_⟩
  intro hpolicy
  have hnone : ∀ key, ¬w'.Filled key := by
    intro key hfilled
    apply hempty key ?_ hfilled
    rw [victims, hpolicy]
    exact mem_pending_iff.2 (hdrained.filled hfilled)
  obtain ⟨new, -, h'⟩ := hdrained
  exact ⟨h'.bufferedBytes_eq_zero hnone, fun key b => isEmpty_of_not_filled (hnone key)⟩

end Holds

variable [Logarithm]

/-- Whenever points that were received make more than the bound, on a sink that takes everything,
the call succeeds and pressure is relieved. -/
theorem Reachable.pressure_relieved {P : σ → Prop} (g : Sink.Generous P) (h : w.Reachable)
    (hs : w.state = .active) (hp : P w.output.sink) (hsupported : w.registry.IsSupported)
    {op : Operation} (hop : op.offers = true) (hreceive : receive op w = .ok () w₁)
    (hover : w₁.options.maxBufferedBytes < w₁.bufferedBytes)
    (hfits : ∀ key ∈ w₁.victims, w₁.packs key = true) :
    ∃ w', w.perform op = (.ok (), w') ∧ relievePressure w₁ = .ok () w' ∧ Relieved w₁ w' := by
  obtain ⟨o, ledger, runs, hholds⟩ := h.keeps hs
  rw [hholds.registry_eq] at hsupported
  obtain ⟨ledger₁, runs₁, hholds₁⟩ : ∃ ledger₁ runs₁, Holds o .active runs₁ ledger₁ w₁ := by
    rcases hholds.receive_cases hop with ⟨fault, -, hrefused⟩ | ⟨ledger₁, time, -, hends⟩
    · rw [hrefused] at hreceive
      contradiction
    · obtain ⟨full, w₀, -, ⟨new, -, hholds₁⟩, -⟩ := hends.of_ok hreceive
      exact ⟨ledger₁, _, hholds₁⟩
  have hp₁ : P w₁.output.sink := (receive_sustains g op).sink hreceive hp
  obtain ⟨w', hrelieve, hrelieved⟩ := hholds₁.relieved g hp₁ hsupported hover hfits
  refine ⟨w', perform_ok ?_, hrelieve, hrelieved⟩
  rw [action_eq_receive hop, bind_ok hreceive, hrelieve]

end Writer

section

attribute [local instance] sampleLogarithm

/-- Two points, of twelve and of fourteen bytes. -/
def sampleReading : Operation :=
  .writeRecord "root.a" 5 [("t", .int32 7), ("n", .text "TsFile")]

/-- Either of the two points may be buffered, but not both. -/
def samplePressed : Options :=
  { maxBufferedBytes := 16 }

/-- Whether points that are received make more than the bound, and the larger buffer is to be
written then and can be. -/
def sampleOver (w : Writer MemorySink) : Bool :=
  match Writer.receive sampleReading w with
  | .ok () w₁ => w₁.options.maxBufferedBytes < w₁.bufferedBytes && w₁.victims.all w₁.packs &&
      w₁.victims = [⟨"root.a", "n"⟩]
  | .error _ _ => false

/-- The text is larger than the integer, and is the one to be written. -/
theorem sample_over :
    (Writer.start MemorySink.unlimited sampleRegistry samplePressed).toOption.all sampleOver =
      true := by
  decide +kernel

/-- A record makes more than the bound, and the larger of its points is written. -/
theorem pressure_relieved_sample : ∃ w w₁ w' : Writer MemorySink,
    w.Reachable ∧ w.state = .active ∧ w.output.sink.IsUnlimited ∧ w.registry.IsSupported ∧
      Writer.receive sampleReading w = .ok () w₁ ∧
      w₁.options.maxBufferedBytes < w₁.bufferedBytes ∧ w₁.victims = [⟨"root.a", "n"⟩] ∧
      (∀ key ∈ w₁.victims, w₁.packs key = true) ∧
      w.perform sampleReading = (.ok (), w') ∧ w₁.Relieved w' := by
  obtain ⟨w, hstart⟩ := MemorySink.generous.start_ok (t := MemorySink.unlimited) ⟨rfl, rfl, rfl⟩
    sampleRegistry samplePressed
  obtain ⟨runs, hholds⟩ := Writer.start_ok hstart
  have hsink : w.output.sink.IsUnlimited :=
    Writer.start_generous MemorySink.generous hstart ⟨rfl, rfl, rfl⟩
  have hsupported : w.registry.IsSupported := by
    rw [hholds.registry_eq]
    decide +kernel
  have hover := sample_over
  rw [hstart] at hover
  simp only [Except.toOption, Option.all_some, sampleOver] at hover
  split at hover
  · rename_i w₁ hreceive
    simp only [Bool.and_eq_true, decide_eq_true_eq, List.all_eq_true] at hover
    obtain ⟨⟨hover, hfits⟩, hvictims⟩ := hover
    obtain ⟨w', hperform, -, hrelieved⟩ := Writer.Reachable.pressure_relieved
      MemorySink.generous (.opened hstart) hholds.state_eq hsink hsupported rfl hreceive hover hfits
    exact ⟨w, w₁, w', .opened hstart, hholds.state_eq, hsink, hsupported, hreceive, hover, hvictims,
      hfits, hperform, hrelieved⟩
  · contradiction

end

end SeriesFile
