import SeriesFile.Proofs.Declarations
import SeriesFile.Proofs.Isolation

/-!
# Numbers are given out once

One counter numbers the series and the writers of a session. What its numbers stand for is told by
the answers that it gave (`Workplace.Records`): a number stands for a series from the answer that
gave it out until the answer that took it back, and then for nothing any more.

What a request can do to numbers is said once (`Workplace.dealing`). The records are kept by one
request and so by all (`Workplace.Records.perform`, `Workplace.Records.after`), and from them it
follows what the next requests are answered (`Workplace.numbers_given_once`).
-/

namespace SeriesFile

section

variable {μ : Type}

namespace Session

/-- The series that a number stands for. -/
def series (s : Session μ) (id : Nat) : Except Fault (SeriesKey × Schema) :=
  match s.schemas.lookup id with
  | some (.live key schema) => .ok (key, schema)
  | _ => .error .handleClosed

/-- The series of numbers are added one after another. -/
theorem registryOf_eq (s : Session μ) (ids : List Nat) :
    s.registryOf ids = Registry.addAll s.series SeriesTable.empty ids := by
  unfold registryOf Registry.addAll
  congr
  funext r id
  unfold series
  rcases s.schemas.lookup id with _ | ⟨key, schema⟩ | _ <;> rfl

end Session

variable [Sink μ]

/-! ### Transcripts -/

/-- Requests with the answers to them, the earliest first. -/
abbrev Transcript (μ : Type) [Sink μ] := List (Request μ × Except Fault (Option Nat))

namespace Transcript

/-- The numbers that were given out, for whatever. -/
def issued (t : Transcript μ) : List Nat :=
  t.filterMap fun step => step.2.toOption.join

/-- A number was given out for a series. -/
def Created (t : Transcript μ) (id : Nat) (entry : SeriesKey × Schema) : Prop :=
  (.createSchema entry.1 entry.2, .ok (some id)) ∈ t

/-- The number of a series was taken back. -/
def Released (t : Transcript μ) (id : Nat) : Prop :=
  (.releaseSchema id, .ok none) ∈ t

/-- A number was given out for a writer. -/
def Opened (t : Transcript μ) (id : Nat) : Prop :=
  ∃ place schemas options, (.openWriter place schemas options, .ok (some id)) ∈ t

/-- A number stands for a series. -/
def Stands (t : Transcript μ) (id : Nat) (entry : SeriesKey × Schema) : Prop :=
  t.Created id entry ∧ ¬t.Released id

/-- Numbers stand for series that differ from each other. -/
def StandApart (t : Transcript μ) (ids : List Nat) (entries : List (SeriesKey × Schema)) : Prop :=
  List.Forall₂ t.Stands ids entries ∧ (entries.map Prod.fst).Nodup

/-- The answers to requests to take a number back. -/
def releases (id : Nat) (t : Transcript μ) : List (Except Fault (Option Nat)) :=
  t.filterMap fun
    | (.releaseSchema other, answer) => if other = id then some answer else none
    | _ => none

variable {t : Transcript μ} {r : Request μ} {answer : Except Fault (Option Nat)} {id : Nat}
  {entry : SeriesKey × Schema}

/-- An answer that gives out a number adds it at the end. -/
theorem issued_concat : issued (t ++ [(r, answer)]) = t.issued ++ answer.toOption.join.toList := by
  rw [issued, List.filterMap_append, List.filterMap_cons, List.filterMap_nil]
  cases answer.toOption.join <;> rfl

/-- Any other answer adds none. -/
theorem issued_concat_of_unnumbered (unnumbered : ∀ id, answer ≠ .ok (some id)) :
    issued (t ++ [(r, answer)]) = t.issued := by
  rw [issued_concat]
  rcases answer with fault | number | id
  · exact List.append_nil _
  · exact List.append_nil _
  · exact absurd rfl (unnumbered id)

theorem issued_concat_none : issued (t ++ [(r, .ok none)]) = t.issued :=
  issued_concat_of_unnumbered nofun

/-- A series has its number from an earlier answer or from the last one. -/
theorem created_concat : Created (t ++ [(r, answer)]) id entry ↔
    t.Created id entry ∨ r = .createSchema entry.1 entry.2 ∧ answer = .ok (some id) := by
  simp [Created, eq_comm]

/-- A number was taken back earlier or by the last request. -/
theorem released_concat : Released (t ++ [(r, answer)]) id ↔
    t.Released id ∨ r = .releaseSchema id ∧ answer = .ok none := by
  simp [Released, eq_comm]

/-- And a writer was opened earlier or by the last request. -/
theorem opened_concat : Opened (t ++ [(r, answer)]) id ↔
    t.Opened id ∨ (∃ place schemas options, r = .openWriter place schemas options) ∧
      answer = .ok (some id) := by
  simp [Opened, exists_or, eq_comm]

/-- A series or a writer has its number from an answer. -/
theorem Created.mem_issued (h : t.Created id entry) : id ∈ t.issued :=
  List.mem_filterMap.2 ⟨_, h, rfl⟩

theorem Opened.mem_issued (h : t.Opened id) : id ∈ t.issued :=
  let ⟨_, _, _, h⟩ := h
  List.mem_filterMap.2 ⟨_, h, rfl⟩

/-- The answer to a request to take the number back is the first of them. -/
theorem releases_cons_self :
    releases id ((.releaseSchema id, answer) :: t) = answer :: t.releases id := by
  simp [releases]

/-- Other requests are not among them. -/
theorem releases_cons_of_ne (h : r ≠ .releaseSchema id) :
    releases id ((r, answer) :: t) = t.releases id := by
  cases r with
  | releaseSchema other =>
    have hne : other ≠ id := fun heq => h (congrArg _ heq)
    simp [releases, hne]
  | _ => rfl

/-- What was taken back once is so ever after. -/
theorem Released.append (h : t.Released id) (later : Transcript μ) : Released (t ++ later) id :=
  List.mem_append_left later h

end Transcript

namespace Workplace

/-! ### What numbers stand for -/

/-- What a session has is what its answers say. -/
structure Records (p : Workplace μ) (t : Transcript μ) : Prop where
  nextId : p.session.nextId = t.issued.length + 1
  /-- Numbers are given out one after another. -/
  issued : t.issued = List.range' 1 t.issued.length
  /-- Only what was given out is taken back. -/
  created : ∀ {id}, t.Released id → ∃ entry, t.Created id entry
  live : ∀ {id key schema},
    p.session.schemas.lookup id = some (.live key schema) ↔ t.Stands id (key, schema)
  released : ∀ {id}, p.session.schemas.lookup id = some .released ↔ t.Released id
  opened : ∀ {id}, (p.session.writers.lookup id).isSome ↔ t.Opened id

namespace Records

variable {p q : Workplace μ} {t : Transcript μ}

/-- A new session has given no answers and has nothing. -/
theorem new (disk : Disk) : Records ⟨(Session.new : Session μ), disk⟩ [] where
  nextId := rfl
  issued := rfl
  created := nofun
  live := ⟨nofun, nofun⟩
  released := ⟨nofun, nofun⟩
  opened := ⟨nofun, nofun⟩

/-- The counter is beyond all numbers that were given out. -/
theorem lt_nextId (h : p.Records t) {id : Nat} (hid : id ∈ t.issued) : id < p.session.nextId := by
  rw [h.issued, List.mem_range'_1] at hid
  rw [h.nextId]
  omega

/-- The next number is new for every purpose. -/
theorem not_created (h : p.Records t) (entry : SeriesKey × Schema) :
    ¬t.Created p.session.nextId entry :=
  fun hc => Nat.lt_irrefl _ (h.lt_nextId hc.mem_issued)

/-- Nor was it ever taken back, as only numbers that were given out are. -/
theorem not_released (h : p.Records t) : ¬t.Released p.session.nextId := fun hr =>
  let ⟨entry, hc⟩ := h.created hr
  h.not_created entry hc

/-- What takes no number back leaves it so that only what was given out is taken back. -/
theorem created_concat (h : p.Records t) {r : Request μ} {answer : Except Fault (Option Nat)}
    (kept : ∀ id, r ≠ .releaseSchema id) {id : Nat}
    (hr : Transcript.Released (t ++ [(r, answer)]) id) :
    ∃ entry, Transcript.Created (t ++ [(r, answer)]) id entry := by
  have hr : t.Released id :=
    (Transcript.released_concat.1 hr).resolve_right fun heq => kept id heq.1
  obtain ⟨entry, hc⟩ := h.created hr
  exact ⟨entry, Transcript.created_concat.2 (.inl hc)⟩

/-- The next number continues those given out. -/
theorem issued_next (h : p.Records t) (r : Request μ) :
    Transcript.issued (t ++ [(r, .ok (some p.session.nextId))]) =
      List.range' 1 (t.issued.length + 1) := by
  rw [Transcript.issued_concat, List.range'_1_concat, ← h.issued, h.nextId, Nat.add_comm 1]
  rfl

/-! ### Numbers given out and taken back -/

/-- A series that gets the next number: the counter goes on, and the number stands for the
series. -/
theorem enroll (h : p.Records t) (key : SeriesKey) (schema : Schema) :
    (Session.enroll key schema p).Records
      (t ++ [(.createSchema key schema, .ok (some p.session.nextId))]) where
  nextId := by
    rw [h.issued_next, List.length_range', ← h.nextId]
    rfl
  issued := by rw [h.issued_next, List.length_range']
  created hr := h.created_concat (by simp) hr
  live {id key' schema'} := by
    rw [Session.lookup_enroll, Transcript.Stands, Transcript.created_concat,
      Transcript.released_concat]
    by_cases hid : id = p.session.nextId
    · -- Of this number no earlier answer says anything.
      subst hid
      simp [h.not_created, h.not_released]
    · rw [if_neg hid, h.live, Transcript.Stands]
      simp [Ne.symm hid]
  released {id} := by
    rw [Session.lookup_enroll, Transcript.released_concat]
    by_cases hid : id = p.session.nextId
    · subst hid
      simp [h.not_released]
    · rw [if_neg hid, h.released]
      simp
  opened {id} := by
    rw [Transcript.opened_concat, ← h.opened]
    simp [Session.enroll]

/-- A number that is taken back stands for nothing from now on, while the counter stays. -/
theorem retire (h : p.Records t) {id : Nat} {key : SeriesKey} {schema : Schema}
    (live : p.session.schemas.lookup id = some (.live key schema)) :
    (Session.retire id p).Records (t ++ [(.releaseSchema id, .ok none)]) where
  nextId := by
    rw [Transcript.issued_concat_none]
    exact h.nextId
  issued := by
    rw [Transcript.issued_concat_none]
    exact h.issued
  created {other} hr := by
    simp only [Transcript.created_concat]
    rcases Transcript.released_concat.1 hr with hr | ⟨heq, -⟩
    · exact (h.created hr).imp fun _ => .inl
    · -- It stood for a series, so it was given out.
      obtain rfl := Request.releaseSchema.inj heq
      exact ⟨_, .inl (h.live.1 live).1⟩
  live {other key' schema'} := by
    rw [Session.lookup_retire, Transcript.Stands, Transcript.created_concat,
      Transcript.released_concat]
    by_cases hid : other = id
    · subst hid
      simp [live]
    · rw [if_neg hid, h.live, Transcript.Stands]
      simp [Ne.symm hid]
  released {other} := by
    rw [Session.lookup_retire, Transcript.released_concat]
    by_cases hid : other = id
    · subst hid
      simp [live]
    · rw [if_neg hid, h.released]
      simp [Ne.symm hid]
  opened {other} := by
    rw [Transcript.opened_concat, ← h.opened]
    simp [Session.retire]

/-- A writer that gets the next number takes none from the series. -/
theorem enlist (h : p.Records t) (place : Place μ) (g : Grant μ) (schemas : List Nat)
    (options : Options) (w : Writer (OpenFile μ)) : (Session.enlist g w p).Records
      (t ++ [(.openWriter place schemas options, .ok (some p.session.nextId))]) where
  nextId := by
    rw [h.issued_next, List.length_range', ← h.nextId]
    rfl
  issued := by rw [h.issued_next, List.length_range']
  created hr := h.created_concat (by simp) hr
  live {id key schema} := by
    rw [Transcript.Stands, Transcript.created_concat, Transcript.released_concat]
    simpa [Session.enlist, Transcript.Stands] using h.live
  released {id} := by
    rw [Transcript.released_concat]
    simpa [Session.enlist] using h.released
  opened {id} := by
    rw [Session.lookup_enlist, Transcript.opened_concat]
    by_cases hid : id = p.session.nextId
    · subst hid
      simp
    · rw [if_neg hid, h.opened]
      simp [Ne.symm hid]

/-- What gives no number out and takes none back. -/
theorem keep (h : p.Records t) {r : Request μ} {answer : Except Fault (Option Nat)}
    (unnumbered : ∀ id, answer ≠ .ok (some id))
    (kept : ∀ id, r = .releaseSchema id → answer ≠ .ok none)
    (nextId : q.session.nextId = p.session.nextId) (schemas : q.session.schemas = p.session.schemas)
    (writers : ∀ id, (q.session.writers.lookup id).isSome = (p.session.writers.lookup id).isSome) :
    q.Records (t ++ [(r, answer)]) := by
  have hissued := Transcript.issued_concat_of_unnumbered (t := t) (r := r) unnumbered
  have hcreated {id : Nat} {entry : SeriesKey × Schema} :
      Transcript.Created (t ++ [(r, answer)]) id entry ↔ t.Created id entry := by
    rw [Transcript.created_concat]
    exact or_iff_left fun h => unnumbered id h.2
  have hreleased {id : Nat} : Transcript.Released (t ++ [(r, answer)]) id ↔ t.Released id := by
    rw [Transcript.released_concat]
    exact or_iff_left fun h => kept id h.1 h.2
  have hopened {id : Nat} : Transcript.Opened (t ++ [(r, answer)]) id ↔ t.Opened id := by
    rw [Transcript.opened_concat]
    exact or_iff_left fun h => unnumbered id h.2
  -- None of the four ways to say something of numbers is touched by the last answer.
  constructor
  · rw [nextId, hissued, h.nextId]
  · rw [hissued]
    exact h.issued
  · simpa only [hreleased, hcreated] using @h.created
  · simpa only [Transcript.Stands, hreleased, hcreated, schemas] using @h.live
  · simpa only [hreleased, schemas] using @h.released
  · simpa only [hopened, writers] using @h.opened

/-! ### What numbers are good for -/

/-- The series of a number is the one it stands for. -/
theorem series_eq_ok_iff (h : p.Records t) {id : Nat} {entry : SeriesKey × Schema} :
    p.session.series id = .ok entry ↔ t.Stands id entry := by
  rw [Session.series, ← h.live]
  rcases p.session.schemas.lookup id with _ | ⟨key, schema⟩ | _ <;> simp [Prod.ext_iff]

/-- A number that stands for nothing is that of a closed handle. -/
theorem series_eq_error_iff (h : p.Records t) {id : Nat} {fault : Fault} :
    p.session.series id = .error fault ↔ (∀ entry, ¬t.Stands id entry) ∧ fault = .handleClosed := by
  simp only [← h.series_eq_ok_iff, Session.series]
  rcases p.session.schemas.lookup id with _ | ⟨key, schema⟩ | _ <;> simp [eq_comm]

/-- Numbers make a registry if they stand for different series. -/
theorem registryOf_eq_ok_iff (h : p.Records t) {ids : List Nat} {r : Registry} :
    p.session.registryOf ids = .ok r ↔
      ∃ entries, List.Forall₂ t.Stands ids entries ∧ entries.Perm r.entries := by
  rw [Session.registryOf_eq, Registry.addAll_eq_ok_iff]
  simp only [h.series_eq_ok_iff]
  rfl

/-- So whether a registry comes about depends on the numbers alone. -/
theorem exists_registry_iff (h : p.Records t) {ids : List Nat} :
    (∃ r, p.session.registryOf ids = .ok r) ↔ ∃ entries, t.StandApart ids entries := by
  simp only [h.registryOf_eq_ok_iff]
  constructor
  · rintro ⟨r, entries, hstand, hperm⟩
    exact ⟨entries, hstand, (hperm.map Prod.fst).nodup_iff.2 r.nodup_keys⟩
  · rintro ⟨entries, hstand, hnodup⟩
    obtain ⟨r, hperm⟩ := SeriesTable.exists_perm hnodup
    exact ⟨r, entries, hstand, hperm⟩

/-- Otherwise the first number decides that stands for no series, or for one that is there. -/
theorem registryOf_eq_error (h : p.Records t) {ids : List Nat}
    (hids : ¬∃ entries, t.StandApart ids entries) :
    ∃ front id back entries, ids = front ++ id :: back ∧ t.StandApart front entries ∧
      ((∀ entry, ¬t.Stands id entry) ∧ p.session.registryOf ids = .error .handleClosed ∨
        ∃ entry, t.Stands id entry ∧ entry.1 ∈ entries.map Prod.fst ∧
          p.session.registryOf ids = .error (.duplicateSeries entry.1)) := by
  cases hregistry : p.session.registryOf ids with
  | ok r => exact absurd (h.exists_registry_iff.1 ⟨r, hregistry⟩) hids
  | error fault =>
    rw [Session.registryOf_eq, Registry.addAll_eq_error_iff] at hregistry
    obtain ⟨front, id, back, r, rfl, hfront, hfault⟩ := hregistry
    rw [← Session.registryOf_eq] at hfront
    obtain ⟨entries, hstand, hperm⟩ := h.registryOf_eq_ok_iff.1 hfront
    have hkeys := hperm.map Prod.fst
    refine ⟨front, id, back, entries, rfl, ⟨hstand, hkeys.nodup_iff.2 r.nodup_keys⟩, ?_⟩
    -- The fault is that of looking the number up, or of adding its series once more.
    rcases hfault with hnone | ⟨entry, hentry, hmem, rfl⟩
    · obtain ⟨hnothing, rfl⟩ := h.series_eq_error_iff.1 hnone
      exact .inl ⟨hnothing, rfl⟩
    · exact .inr ⟨entry, h.series_eq_ok_iff.1 hentry, hkeys.mem_iff.2 hmem, rfl⟩

end Records

variable [Compressor] [Logarithm]

/-- The requests with the answers to them. -/
def transcript (p : Workplace μ) : List (Request μ) → Transcript μ
  | [] => []
  | r :: requests => (r, (p.perform r).1) :: (p.perform r).2.transcript requests

/-! ### What a request does to numbers -/

/-- What a request does to numbers. -/
inductive Dealing (p : Workplace μ) :
    Request μ → Except Fault (Option Nat) × Workplace μ → Prop
  /-- The next number was given to a series. -/
  | created {key : SeriesKey} {schema : Schema} :
      Dealing p (.createSchema key schema)
        (.ok (some p.session.nextId), Session.enroll key schema p)
  /-- The number of a series was taken back. -/
  | released {id : Nat} {key : SeriesKey} {schema : Schema}
      (live : p.session.schemas.lookup id = some (.live key schema)) :
      Dealing p (.releaseSchema id) (.ok none, Session.retire id p)
  /-- The next number was given to a writer. -/
  | opened {place : Place μ} {g : Grant μ} {schemas : List Nat} {options : Options}
      {w : Writer (OpenFile μ)} :
      Dealing p (.openWriter place schemas options)
        (.ok (some p.session.nextId), Session.enlist g w p)
  /-- A writer that was there did something. -/
  | settled {r : Request μ} {id : Nat} {op : Operation} {w w' : Writer (OpenFile μ)}
      {slot : WriterSlot μ} {answer : Except Fault Unit} (address : r.address? = some (id, op))
      (live : p.session.writers.lookup id = some (.live w)) :
      Dealing p r (answer.map fun _ => none, Session.settle id w w' slot p)
  /-- Nothing changed. -/
  | idle {r : Request μ} {answer : Except Fault (Option Nat)}
      (unnumbered : ∀ id, answer ≠ .ok (some id))
      (kept : ∀ id, r = .releaseSchema id → answer ≠ .ok none) : Dealing p r (answer, p)

/-- What is asked of a writer gives no number out and takes none back. -/
theorem dealing_of_address {p : Workplace μ} {r : Request μ} {id : Nat} {op : Operation}
    (address : r.address? = some (id, op)) : p.Dealing r (p.perform r) := by
  have heffect := p.effect r
  generalize p.perform r = q at heffect
  cases heffect with
  | apart none => rw [none] at address; contradiction
  | unopened | opened => contradiction
  | performed address live => exact .settled address live
  | @refused _ _ op address =>
    refine .idle (fun number => ?_) fun number h => ?_
    · cases op <;> exact nofun
    · subst h
      contradiction

/-- What a request does to numbers: the effect of the request, with everything else left out. -/
theorem dealing (p : Workplace μ) (r : Request μ) : p.Dealing r (p.perform r) := by
  cases r with
  | createSchema key schema =>
    rw [perform_createSchema]
    split
    · exact .created
    · exact .idle nofun nofun
  | releaseSchema id =>
    rw [perform_releaseSchema]
    split
    case h_1 => exact .idle nofun nofun
    case h_2 => exact .idle nofun nofun
    case h_3 live => exact .released live
  | openWriter place schemas options =>
    have heffect := p.effect_openWriter place schemas options
    generalize p.perform (.openWriter place schemas options) = q at heffect
    cases heffect with
    | apart _ other => exact absurd rfl (other place schemas options)
    | unopened => exact .idle nofun nofun
    | opened => exact .opened
    | performed address | refused address => contradiction
  | writePoint | closeWriter | abortWriter => exact dealing_of_address rfl

/-! ### Any number of requests -/

namespace Records

variable {p : Workplace μ} {t : Transcript μ}

/-- One request keeps the records, whatever it does to numbers. -/
theorem perform (h : p.Records t) (r : Request μ) :
    (p.perform r).2.Records (t ++ [(r, (p.perform r).1)]) := by
  have hdealing := p.dealing r
  generalize p.perform r = q at hdealing
  cases hdealing with
  | created => exact h.enroll _ _
  | released live => exact h.retire live
  | opened => exact h.enlist _ _ _ _ _
  | @settled r id op w w' slot answer address live =>
    -- A writer's slot is replaced by another, so its number is as much in use as before.
    refine h.keep (fun number => ?_) (fun number heq => ?_) rfl rfl fun other => ?_
    · cases answer <;> exact nofun
    · rw [heq] at address
      contradiction
    · rw [Session.lookup_settle]
      by_cases hid : other = id
      · rw [if_pos hid, hid, live]
        rfl
      · rw [if_neg hid]
  | idle unnumbered kept => exact h.keep unnumbered kept rfl rfl fun _ => rfl

/-- So do any number of requests, by induction: the transcript grows with the requests. -/
theorem after (h : p.Records t) (requests : List (Request μ)) :
    (p.after requests).Records (t ++ p.transcript requests) := by
  induction requests generalizing p t with
  | nil => rwa [transcript, List.append_nil]
  | cons r requests ih =>
    rw [transcript, List.append_cons]
    exact ih (h.perform r)

/-! ### What numbers are refused, and what they open -/

/-- Numbers are given back to no avail after the first time. -/
theorem perform_released (h : p.Records t) {id : Nat} (hr : t.Released id) :
    p.perform (.releaseSchema id) = (.error (.doubleRelease id), p) := by
  rw [perform_releaseSchema, h.released.2 hr]

/-- Every further request to take a number back is answered in one way: by induction on the
requests, since those in between do not make it stand for anything. -/
theorem releases_of_released (h : p.Records t) {id : Nat} (hr : t.Released id)
    (later : List (Request μ)) : ∃ n, Transcript.releases id (p.transcript later) =
      List.replicate n (.error (.doubleRelease id)) := by
  induction later generalizing p t with
  | nil => exact ⟨0, rfl⟩
  | cons r later ih =>
    obtain ⟨n, hn⟩ := ih (h.perform r) (hr.append _)
    by_cases hrelease : r = .releaseSchema id
    · subst hrelease
      refine ⟨n + 1, ?_⟩
      rw [transcript, Transcript.releases_cons_self, hn, h.perform_released hr]
      rfl
    · refine ⟨n, ?_⟩
      rwa [transcript, Transcript.releases_cons_of_ne hrelease]

/-- The number of a series is taken back once. -/
theorem releases_of_stands (h : p.Records t) {id : Nat} {entry : SeriesKey × Schema}
    (hs : t.Stands id entry) (later : List (Request μ)) :
    Transcript.releases id (p.transcript later) = [] ∨
      ∃ n, Transcript.releases id (p.transcript later) =
        .ok none :: List.replicate n (.error (.doubleRelease id)) := by
  induction later generalizing p t with
  | nil => exact .inl rfl
  | cons r later ih =>
    have hnext := h.perform r
    by_cases hrelease : r = .releaseSchema id
    · -- From here on the number is one that was taken back.
      subst hrelease
      have hperform : (p.perform (.releaseSchema id)).1 = .ok none := by
        rw [perform_releaseSchema, h.live.2 hs]
      obtain ⟨n, hn⟩ := hnext.releases_of_released
        (Transcript.released_concat.2 (.inr ⟨rfl, hperform⟩)) later
      refine .inr ⟨n, ?_⟩
      rw [transcript, Transcript.releases_cons_self, hn, hperform]
    · -- The number stands for its series still, so the induction goes on.
      rw [transcript, Transcript.releases_cons_of_ne hrelease]
      refine ih hnext ⟨Transcript.created_concat.2 (.inl hs.1), fun hr => ?_⟩
      exact (Transcript.released_concat.1 hr).elim hs.2 fun heq => hrelease heq.1

/-- A number that no series ever had is not taken back. -/
theorem perform_unknown (h : p.Records t) {id : Nat} (hc : ∀ entry, ¬t.Created id entry) :
    p.perform (.releaseSchema id) = (.error .handleClosed, p) := by
  rw [perform_releaseSchema]
  -- A slot that is there, live or released, would tell of a series.
  rcases hslot : p.session.schemas.lookup id with _ | ⟨key, schema⟩ | _
  · rfl
  · exact absurd (h.live.1 hslot).1 (hc _)
  · obtain ⟨entry, hentry⟩ := h.created (h.released.1 hslot)
    exact absurd hentry (hc entry)

/-- What is refused leaves numbers alone. -/
theorem unchanged (p : Workplace μ) (r : Request μ) {fault : Fault}
    (hr : (p.perform r).1 = .error fault) :
    (p.perform r).2.session.nextId = p.session.nextId ∧
      (p.perform r).2.session.schemas = p.session.schemas ∧
      ∀ id, r.operation? id = none →
        (p.perform r).2.session.writers.lookup id = p.session.writers.lookup id := by
  have hdealing := p.dealing r
  generalize p.perform r = q at hr hdealing
  cases hdealing with
  | created | released | opened => contradiction
  | settled address live =>
    refine ⟨rfl, rfl, fun id hid => ?_⟩
    rw [Session.lookup_settle, if_neg]
    rintro rfl
    rw [Request.operation?_of_address address] at hid
    contradiction
  | idle => exact ⟨rfl, rfl, fun _ _ => rfl⟩

/-- A writer that was closed or given up stays so. -/
theorem lookup_perform_of_retired (h : p.Records t) {id : Nat} {slot : WriterSlot μ}
    (hslot : p.session.writers.lookup id = some slot) (hretired : slot.isLive = false)
    (r : Request μ) : (p.perform r).2.session.writers.lookup id = some slot := by
  have hopened : t.Opened id := h.opened.1 (by rw [hslot]; rfl)
  have hdealing := p.dealing r
  generalize p.perform r = q at hdealing
  cases hdealing with
  | created | released | idle => exact hslot
  | opened =>
    rwa [Session.lookup_enlist, if_neg (Nat.ne_of_lt (h.lt_nextId hopened.mem_issued))]
  | @settled _ other _ w _ _ _ address live =>
    -- Only a writer that is still there does anything.
    have hne : id ≠ other := by
      rintro rfl
      obtain rfl := Option.some.inj (live.symm.trans hslot)
      contradiction
    rwa [Session.lookup_settle, if_neg hne]

/-- And through any number of requests, by induction. -/
theorem lookup_after_of_retired (h : p.Records t) {id : Nat} {slot : WriterSlot μ}
    (hslot : p.session.writers.lookup id = some slot) (hretired : slot.isLive = false)
    (later : List (Request μ)) : (p.after later).session.writers.lookup id = some slot := by
  induction later generalizing p t with
  | nil => exact hslot
  | cons r later ih => exact ih (h.perform r) (h.lookup_perform_of_retired hslot hretired r)

/-- A writer is opened over numbers that stand for different series, on a file that is created. -/
theorem opens_iff (h : p.Records t) (place : Place μ) (schemas : List Nat) (options : Options) :
    (∃ id, (p.perform (.openWriter place schemas options)).1 = .ok (some id)) ↔
      (∃ entries, t.StandApart schemas entries) ∧ place.grant?.isSome := by
  rw [← h.exists_registry_iff]
  -- The registry is looked for before the file is created.
  cases registered : p.session.registryOf schemas with
  | error fault => simp [p.perform_openWriter_of_unregistered registered]
  | ok registry =>
    cases granted : place.grant? with
    | none => simp [p.perform_openWriter_of_ungranted registered granted]
    | some g =>
      obtain ⟨w, -, hperform⟩ := p.perform_openWriter_of_granted registered granted
      rw [hperform]
      simp

/-- Otherwise the first of the numbers that cannot be used is at fault, and nothing has happened. -/
theorem refuses (h : p.Records t) (place : Place μ) {schemas : List Nat} (options : Options)
    (hids : ¬∃ entries, t.StandApart schemas entries) :
    ∃ front id back entries, schemas = front ++ id :: back ∧ t.StandApart front entries ∧
      ((∀ entry, ¬t.Stands id entry) ∧
          p.perform (.openWriter place schemas options) = (.error .handleClosed, p) ∨
        ∃ entry, t.Stands id entry ∧ entry.1 ∈ entries.map Prod.fst ∧
          p.perform (.openWriter place schemas options) =
            (.error (.duplicateSeries entry.1), p)) := by
  obtain ⟨front, id, back, entries, hsplit, hfront, hfault⟩ := h.registryOf_eq_error hids
  refine ⟨front, id, back, entries, hsplit, hfront, ?_⟩
  rcases hfault with ⟨hnothing, hregistry⟩ | ⟨entry, hentry, hmem, hregistry⟩
  · exact .inl ⟨hnothing, p.perform_openWriter_of_unregistered hregistry⟩
  · exact .inr ⟨entry, hentry, hmem, p.perform_openWriter_of_unregistered hregistry⟩

/-- Where the numbers would do but the system creates no file, that is the fault. -/
theorem bars (h : p.Records t) {place : Place μ} {schemas : List Nat} (options : Options)
    (hids : ∃ entries, t.StandApart schemas entries) (ungranted : place.grant? = none) :
    p.perform (.openWriter place schemas options) =
      (.error (.cannotCreateFile place.path), p) := by
  obtain ⟨registry, registered⟩ := h.exists_registry_iff.2 hids
  exact p.perform_openWriter_of_ungranted registered ungranted

end Records

/-! ### Numbers -/

/-- What the answers of a session tell about its numbers, and about the answers to come. -/
structure Numbered (p : Workplace μ) (t : Transcript μ) : Prop extends Records p t where
  /-- No number is given out twice, whether for series or for writers. -/
  distinct : t.issued.Nodup
  /-- What is answered with a fault takes no number, and changes at most the writer it is for. -/
  unchanged : ∀ r fault, (p.perform r).1 = .error fault →
    (p.perform r).2.session.nextId = p.session.nextId ∧
      (p.perform r).2.session.schemas = p.session.schemas ∧
      ∀ id, r.operation? id = none →
        (p.perform r).2.session.writers.lookup id = p.session.writers.lookup id
  /-- The number of a series is taken back at the first request, and never again. -/
  releases_once : ∀ id entry, t.Stands id entry → ∀ later,
    Transcript.releases id (p.transcript later) = [] ∨
      ∃ n, Transcript.releases id (p.transcript later) =
        .ok none :: List.replicate n (.error (.doubleRelease id))
  releases_late : ∀ id, t.Released id →
    p.perform (.releaseSchema id) = (.error (.doubleRelease id), p)
  releases_unknown : ∀ id, (∀ entry, ¬t.Created id entry) →
    p.perform (.releaseSchema id) = (.error .handleClosed, p)
  /-- A writer is opened over numbers that stand for different series, on a file that is created. -/
  opens_iff : ∀ place schemas options,
    (∃ id, (p.perform (.openWriter place schemas options)).1 = .ok (some id)) ↔
      (∃ entries, t.StandApart schemas entries) ∧ place.grant?.isSome
  /-- The first number that stands for no series, or for one that another stood for, is at fault. -/
  refuses : ∀ place schemas options, (¬∃ entries, t.StandApart schemas entries) →
    ∃ front id back entries, schemas = front ++ id :: back ∧ t.StandApart front entries ∧
      ((∀ entry, ¬t.Stands id entry) ∧
          p.perform (.openWriter place schemas options) = (.error .handleClosed, p) ∨
        ∃ entry, t.Stands id entry ∧ entry.1 ∈ entries.map Prod.fst ∧
          p.perform (.openWriter place schemas options) = (.error (.duplicateSeries entry.1), p))
  /-- Only then does it matter whether there can be a file. -/
  bars : ∀ place schemas options, (∃ entries, t.StandApart schemas entries) →
    place.grant? = none →
      p.perform (.openWriter place schemas options) = (.error (.cannotCreateFile place.path), p)
  /-- A number that was taken back stands for nothing ever after. -/
  released_stays : ∀ id, t.Released id → ∀ later,
    (p.after later).session.schemas.lookup id = some .released
  /-- A writer that was closed or given up stays so. -/
  retired_stays : ∀ id slot, p.session.writers.lookup id = some slot → slot.isLive = false →
    ∀ later, (p.after later).session.writers.lookup id = some slot

/-- Whatever a session is asked for, it gives out each number once, and what the number was given
out for it stands for until it is taken back, and never again. -/
theorem numbers_given_once (disk : Disk) (requests : List (Request μ)) :
    Numbered (after ⟨Session.new, disk⟩ requests) (transcript ⟨Session.new, disk⟩ requests) := by
  have hnew : Records ⟨(Session.new : Session μ), disk⟩ [] := .new disk
  have h := hnew.after requests
  rw [List.nil_append] at h
  exact {
    h with
    distinct := by
      rw [h.issued]
      exact List.nodup_range'
    unchanged := fun r _ => Records.unchanged _ r
    releases_once := fun _ _ => h.releases_of_stands
    releases_late := fun _ => h.perform_released
    releases_unknown := fun _ => h.perform_unknown
    opens_iff := h.opens_iff
    refuses := fun place _ options => h.refuses place options
    bars := fun _ _ options => h.bars options
    released_stays := fun _ hr later => (h.after later).released.2 (hr.append _)
    retired_stays := fun _ _ => h.lookup_after_of_retired }

end Workplace

end

/-- A series is given back while a writer is open over it, and again after the writer was given
up. -/
def sampleReturns : List (Request MemorySink) := [
  .createSchema ⟨"root.a", "t"⟩ ⟨.int32, .ts2diff, .gzip⟩,
  .createSchema ⟨"root.b", "v"⟩ ⟨.double, .ts2diff, .snappy⟩,
  .createSchema ⟨"root.b", "v"⟩ ⟨.double, .gorilla, .snappy⟩,
  .openWriter (Disk.place "a" .unlimited MemorySink.accepted_unlimited) [1, 2] {},
  .releaseSchema 1,
  .abortWriter 3,
  .releaseSchema 1]

/-- The first series is given back while its writer is open, and the second return is refused for
good; the writer that was given up stays so. -/
theorem numbers_given_once_sample :
    let p := Workplace.after ⟨Session.new, Disk.empty⟩ sampleReturns
    let t := Workplace.transcript ⟨Session.new, Disk.empty⟩ sampleReturns
    t.issued = [1, 2, 3] ∧ p.Numbered t ∧
      p.perform (.releaseSchema 1) = (.error (.doubleRelease 1), p) ∧
      ∀ later, (p.after later).session.schemas.lookup 1 = some .released ∧
        (p.after later).session.writers.lookup 3 = some .aborted := by
  intro p t
  have h := Workplace.numbers_given_once Disk.empty sampleReturns
  have hreleased : t.Released 1 := h.released.1 (by rfl)
  refine ⟨by decide +kernel, h, h.releases_late 1 hreleased, fun later => ?_⟩
  exact ⟨h.released_stays 1 hreleased later, h.retired_stays 3 _ (by rfl) rfl later⟩

end SeriesFile
