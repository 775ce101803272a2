import SeriesFile.Proofs.OpenFiles

/-!
# Requests to a session

A `Request` is one thing that a caller can ask of a session, and `Workplace.after` is what becomes
of the session and its disk when one is asked after another. What a request can do is said once
(`Workplace.effect`): it leaves files and writers alone, it opens a writer, it is performed by the
writer that it is addressed to, or there is no such writer any more.
-/

namespace SeriesFile

variable {μ : Type}

/-! ### Numbers and what they stand for -/

namespace Session

/-- A number is looked for in the first slot and then in the others. -/
theorem lookup_cons {α : Type} (id : Nat) (a : α) (slots : List (Nat × α)) (other : Nat) :
    ((id, a) :: slots).lookup other = if other = id then some a else slots.lookup other := by
  by_cases h : other = id
  · subst h
    simp
  · have hne : (other == id) = false := beq_false_of_ne h
    rw [List.lookup_cons, hne, if_neg h]

/-- A slot that is replaced is found with its new contents, if it was there at all; the others are
as they were. -/
theorem lookup_replace {α : Type} (id : Nat) (a : α) (slots : List (Nat × α)) (other : Nat) :
    (replace id a slots).lookup other =
      if other = id then (slots.lookup id).map fun _ => a else slots.lookup other := by
  induction slots with
  | nil => simp [replace]
  | cons slot slots ih =>
    obtain ⟨first, b⟩ := slot
    have hcons : replace id a ((first, b) :: slots) =
        (first, if first = id then a else b) :: replace id a slots := by
      simp only [replace, List.map_cons, List.cons.injEq, and_true]
      split
      · rename_i h
        rw [h]
      · rfl
    rw [hcons, lookup_cons, lookup_cons, lookup_cons, ih]
    -- What remains is a case distinction on the three numbers.
    grind

/-- Replacing what is in a slot keeps the numbers. -/
@[simp]
theorem map_fst_replace {α : Type} (id : Nat) (a : α) (slots : List (Nat × α)) :
    (replace id a slots).map Prod.fst = slots.map Prod.fst := by
  rw [replace, List.map_map]
  refine List.map_congr_left fun slot _ => ?_
  rw [Function.comp_apply]
  split
  · rename_i h
    exact h.symm
  · rfl

/-- Where no number occurs twice, what is in the list is found by its number. -/
theorem lookup_of_mem {α : Type} {slots : List (Nat × α)} (h : (slots.map Prod.fst).Nodup)
    {id : Nat} {a : α} (ha : (id, a) ∈ slots) : slots.lookup id = some a := by
  induction slots with
  | nil => contradiction
  | cons slot slots ih =>
    obtain ⟨first, b⟩ := slot
    obtain ⟨hfirst, hslots⟩ := List.nodup_cons.1 h
    rw [lookup_cons]
    rcases List.mem_cons.1 ha with heq | ha
    · obtain ⟨rfl, rfl⟩ := Prod.mk.inj heq
      rw [if_pos rfl]
    · have hid : id ∈ slots.map Prod.fst := List.mem_map.2 ⟨_, ha, rfl⟩
      rw [if_neg fun heq : id = first => hfirst (heq ▸ hid)]
      exact ih hslots ha

/-- What is done with the workplace that was asked for is done with it as it is. -/
theorem get_bind {α : Type} (next : Workplace μ → Action μ α) (p : Workplace μ) :
    (get >>= next) p = next p p := rfl

/-- After the workplace has been set, the rest starts from the new one. -/
theorem set_bind {α : Type} (new : Workplace μ) (next : PUnit → Action μ α) (p : Workplace μ) :
    (set new >>= next) p = next ⟨⟩ new := rfl

/-- The workplace after a series has been given a number, which is the next one. -/
def enroll (key : SeriesKey) (schema : Schema) (p : Workplace μ) : Workplace μ where
  session := { p.session with
    nextId := p.session.nextId + 1
    schemas := (p.session.nextId, .live key schema) :: p.session.schemas }
  disk := p.disk

/-- The workplace after the number of a series has been taken back. -/
def retire (id : Nat) (p : Workplace μ) : Workplace μ where
  session := { p.session with schemas := replace id .released p.session.schemas }
  disk := p.disk

/-- The workplace after a writer has been opened on an empty file: it has the next number. -/
def enlist [Sink μ] (g : Grant μ) (w : Writer (OpenFile μ)) (p : Workplace μ) : Workplace μ where
  session := { p.session with
    nextId := p.session.nextId + 1
    writers := (p.session.nextId, .live w) :: p.session.writers }
  disk := create g p.disk

variable (id : Nat) (p : Workplace μ)

/-- The number that was given out stands for its series, the others for what they stood for. -/
theorem lookup_enroll (key : SeriesKey) (schema : Schema) (other : Nat) :
    (enroll key schema p).session.schemas.lookup other =
      if other = p.session.nextId then some (.live key schema)
      else p.session.schemas.lookup other :=
  lookup_cons p.session.nextId (SchemaSlot.live key schema) p.session.schemas other

theorem lookup_retire (other : Nat) :
    (retire id p).session.schemas.lookup other =
      if other = id then (p.session.schemas.lookup id).map fun _ => .released
      else p.session.schemas.lookup other :=
  lookup_replace id SchemaSlot.released p.session.schemas other

variable [Sink μ] (before after : Writer (OpenFile μ)) (slot : WriterSlot μ)

/-- The slot of the writer is the new one, and the other writers are in theirs. -/
theorem lookup_settle (other : Nat) :
    (settle id before after slot p).session.writers.lookup other =
      if other = id then (p.session.writers.lookup id).map fun _ => slot
      else p.session.writers.lookup other :=
  lookup_replace id slot p.session.writers other

theorem map_fst_settle :
    (settle id before after slot p).session.writers.map Prod.fst =
      p.session.writers.map Prod.fst :=
  map_fst_replace id slot p.session.writers

/-- The number that was given out stands for its writer, the others for what they stood for. -/
theorem lookup_enlist (g : Grant μ) (w : Writer (OpenFile μ)) (other : Nat) :
    (enlist g w p).session.writers.lookup other =
      if other = p.session.nextId then some (.live w) else p.session.writers.lookup other :=
  lookup_cons p.session.nextId (WriterSlot.live w) p.session.writers other

end Session

/-! ### Requests -/

variable [Sink μ]

/-- What a caller can ask of a session. What the system gives for a file that is to be created is
part of the request: nothing else in a session depends on the system. -/
inductive Request (μ : Type) [Sink μ] where
  | createSchema (key : SeriesKey) (schema : Schema)
  | releaseSchema (id : Nat)
  | openWriter (place : Place μ) (schemas : List Nat) (options : Options)
  | writePoint (id : Nat) (key : SeriesKey) (time : Int64) (value : Value)
  | closeWriter (id : Nat)
  | abortWriter (id : Nat)

namespace Request

/-- The number of the writer that a request is addressed to, and what it asks of it. -/
def address? : Request μ → Option (Nat × Operation)
  | writePoint id key time value => some (id, .write key time value)
  | closeWriter id => some (id, .close)
  | abortWriter id => some (id, .abort)
  | createSchema .. | releaseSchema _ | openWriter .. => none

/-- What a request asks of the writer with a number. -/
def operation? (id : Nat) (r : Request μ) : Option Operation :=
  r.address?.bind fun address => if address.1 = id then some address.2 else none

variable {r : Request μ} {id : Nat} {op : Operation}

/-- A request asks the writer it is addressed to. -/
theorem operation?_of_address (h : r.address? = some (id, op)) : r.operation? id = some op := by
  rw [operation?, h, Option.bind_some, if_pos rfl]

/-- And no other one. -/
theorem operation?_of_ne {other : Nat} (h : r.address? = some (other, op)) (hne : other ≠ id) :
    r.operation? id = none := by
  rw [operation?, h, Option.bind_some, if_neg hne]

/-- If it asks a writer at all, it is addressed to that one. -/
theorem address_of_operation? (h : r.operation? id = some op) : r.address? = some (id, op) := by
  unfold operation? at h
  obtain ⟨⟨other, op'⟩, haddress, heq⟩ := Option.bind_eq_some_iff.1 h
  split at heq
  · rename_i hid
    obtain rfl := Option.some.inj heq
    rw [haddress, ← hid]
  · contradiction

theorem operation?_of_none (h : r.address? = none) : r.operation? id = none := by
  rw [operation?, h, Option.bind_none]

variable [Compressor] [Logarithm]

/-- The action that a request stands for; some give out a number. -/
def action : Request μ → Session.Action μ (Option Nat)
  | createSchema key schema => some <$> Session.createSchema key schema
  | releaseSchema id => (fun _ => none) <$> Session.releaseSchema id
  | openWriter place schemas options => some <$> Session.openWriter place schemas options
  | writePoint id key time value => (fun _ => none) <$> Session.writePoint id key time value
  | closeWriter id => (fun _ => none) <$> Session.closeWriter id
  | abortWriter id => (fun _ => none) <$> Session.abortWriter id

end Request

variable [Compressor] [Logarithm]

namespace Workplace

/-- The answer to a request, and the workplace after it. -/
def perform (p : Workplace μ) (r : Request μ) : Except Fault (Option Nat) × Workplace μ :=
  match r.action p with
  | .ok answer p => (.ok answer, p)
  | .error fault p => (.error fault, p)

/-- The workplace after requests. -/
def after (p : Workplace μ) (requests : List (Request μ)) : Workplace μ :=
  requests.foldl (fun p r => (p.perform r).2) p

end Workplace

/-! ### Slots -/

namespace Session

/-- The slot that a writer belongs in. -/
def slotOf (w : Writer (OpenFile μ)) : WriterSlot μ :=
  match w.state with
  | .active | .closing => .live w
  | .closed => .closed
  | .aborted => .aborted

/-- The answer to a request for a writer that is not there any more. -/
def refusal (slot : Option (WriterSlot μ)) : Operation → Except Fault (Option Nat)
  | .close => .error (if slot matches some .closed then .alreadyClosed else .handleClosed)
  | .abort | .drop => .ok none
  | .write .. | .writeRecord .. | .flush => .error .handleClosed

/-- It is the answer that a finished writer would give. -/
theorem refusal_slotOf {w : Writer (OpenFile μ)} (h : w.state.isTerminal = true) (op : Operation) :
    refusal (some (slotOf w)) op = (w.perform op).1.map fun _ => none := by
  rw [Writer.perform_late h]
  cases op with
  | close =>
    rw [slotOf]
    -- A close is the only operation that is answered by how the writer was finished.
    rcases hs : w.state with _ | _ | _ | _
    · rw [hs] at h
      contradiction
    · rw [hs] at h
      contradiction
    · rfl
    · rfl
  | _ => rfl

end Session

namespace Workplace

/-- What a request does. -/
inductive Effect (p : Workplace μ) :
    Request μ → Except Fault (Option Nat) × Workplace μ → Prop
  /-- It was about schemas only. -/
  | apart {r : Request μ} {answer : Except Fault (Option Nat)} {session : Session μ}
      (address : r.address? = none)
      (other : ∀ place schemas options, r ≠ .openWriter place schemas options)
      (nextId : p.session.nextId ≤ session.nextId)
      (writers : session.writers = p.session.writers) : Effect p r (answer, ⟨session, p.disk⟩)
  /-- No writer could be opened. -/
  | unopened {place : Place μ} {schemas : List Nat} {options : Options} {fault : Fault} :
      Effect p (.openWriter place schemas options) (.error fault, p)
  /-- A writer was opened on an empty file. -/
  | opened {place : Place μ} {g : Grant μ} {schemas : List Nat} {options : Options}
      {registry : Registry} {w : Writer (OpenFile μ)}
      (registered : p.session.registryOf schemas = .ok registry)
      (granted : place.grant? = some g)
      (started : Writer.start (OpenFile.new g) registry options = .ok w) :
      Effect p (.openWriter place schemas options)
        (.ok (some p.session.nextId), Session.enlist g w p)
  /-- The writer did what it was asked for. -/
  | performed {r : Request μ} {id : Nat} {op : Operation} {w : Writer (OpenFile μ)}
      {slot : WriterSlot μ}
      (address : r.address? = some (id, op))
      (live : p.session.writers.lookup id = some (.live w))
      (kept : ∀ w', slot = .live w' → w' = (w.perform op).2)
      (settled : w.Reachable → w.state = .active → slot = Session.slotOf (w.perform op).2) :
      Effect p r ((w.perform op).1.map fun _ => none,
        Session.settle id w (w.perform op).2 slot p)
  /-- There is no writer to ask. -/
  | refused {r : Request μ} {id : Nat} {op : Operation} (address : r.address? = some (id, op))
      (retired : ∀ w, p.session.writers.lookup id ≠ some (.live w)) :
      Effect p r (Session.refusal (p.session.writers.lookup id) op, p)

variable (p : Workplace μ)

/-- A series gets a number if its encoding can carry its type. -/
theorem perform_createSchema (key : SeriesKey) (schema : Schema) :
    p.perform (.createSchema key schema) =
      if schema.isSupported then (.ok (some p.session.nextId), Session.enroll key schema p)
      else (.error (.unsupportedPair schema.dataType schema.encoding), p) := by
  simp only [perform, Request.action, Session.createSchema, Schema.check]
  cases schema.isSupported <;> rfl

/-- A number is taken back if it stands for a series. -/
theorem perform_releaseSchema (id : Nat) :
    p.perform (.releaseSchema id) =
      match p.session.schemas.lookup id with
      | none => (.error .handleClosed, p)
      | some .released => (.error (.doubleRelease id), p)
      | some (.live _ _) => (.ok none, Session.retire id p) := by
  simp only [perform, Request.action, Session.releaseSchema, Functor.map, EStateM.map,
    Session.get_bind]
  rcases p.session.schemas.lookup id with _ | ⟨key, schema⟩ | _ <;> rfl

/-- Whether the series gets a number or not, no writer is concerned. -/
theorem effect_createSchema (key : SeriesKey) (schema : Schema) :
    p.Effect (.createSchema key schema) (p.perform (.createSchema key schema)) := by
  rw [perform_createSchema]
  split
  · exact .apart rfl nofun (Nat.le_succ _) rfl
  · exact .apart rfl nofun (Nat.le_refl _) rfl

/-- Neither when its number is taken back. -/
theorem effect_releaseSchema (id : Nat) :
    p.Effect (.releaseSchema id) (p.perform (.releaseSchema id)) := by
  rw [perform_releaseSchema]
  split
  all_goals exact .apart rfl nofun (Nat.le_refl _) rfl

section

variable {place : Place μ} {g : Grant μ} {schemas : List Nat} {options : Options}
  {registry : Registry} {fault : Fault}

/-- No writer is opened over what is not a registry. -/
theorem perform_openWriter_of_unregistered
    (unregistered : p.session.registryOf schemas = .error fault) :
    p.perform (.openWriter place schemas options) = (.error fault, p) := by
  simp only [perform, Request.action, Session.openWriter, Functor.map, EStateM.map,
    Session.get_bind, unregistered]
  rfl

/-- No writer is opened where the system creates no file. -/
theorem perform_openWriter_of_ungranted (registered : p.session.registryOf schemas = .ok registry)
    (ungranted : place.grant? = none) :
    p.perform (.openWriter place schemas options) = (.error (.cannotCreateFile place.path), p) := by
  simp only [perform, Request.action, Session.openWriter, Functor.map, EStateM.map,
    Session.get_bind, registered, ungranted]
  rfl

/-- Otherwise one is opened. -/
theorem perform_openWriter_of_granted (registered : p.session.registryOf schemas = .ok registry)
    (granted : place.grant? = some g) :
    ∃ w, Writer.start (OpenFile.new g) registry options = .ok w ∧
      p.perform (.openWriter place schemas options) =
        (.ok (some p.session.nextId), Session.enlist g w p) := by
  obtain ⟨w, hstart, -⟩ := Writer.start_new g registry options
  refine ⟨w, hstart, ?_⟩
  simp only [perform, Request.action, Session.openWriter, Functor.map, EStateM.map,
    Session.get_bind, Session.set_bind, registered, granted, hstart]
  rfl

end

/-- Three things may happen: the numbers make no registry, the system creates no file, or a writer
is opened. -/
theorem effect_openWriter (place : Place μ) (schemas : List Nat) (options : Options) :
    p.Effect (.openWriter place schemas options)
      (p.perform (.openWriter place schemas options)) := by
  cases registered : p.session.registryOf schemas with
  | error fault =>
    rw [p.perform_openWriter_of_unregistered registered]
    exact .unopened
  | ok registry =>
    cases granted : place.grant? with
    | none =>
      rw [p.perform_openWriter_of_ungranted registered granted]
      exact .unopened
    | some g =>
      obtain ⟨w, started, hperform⟩ := p.perform_openWriter_of_granted registered granted
      rw [hperform]
      exact .opened registered granted started

variable {p} {id : Nat} {w : Writer (OpenFile μ)}

/-- A point is written by the writer, whose slot shows whether that finished it. -/
theorem perform_writePoint_of_live (live : p.session.writers.lookup id = some (.live w))
    (key : SeriesKey) (time : Int64) (value : Value) :
    p.perform (.writePoint id key time value) =
      ((w.perform (.write key time value)).1.map fun _ => none,
        Session.settle id w (w.perform (.write key time value)).2
          (if (w.perform (.write key time value)).2.state.isTerminal then .aborted
            else .live (w.perform (.write key time value)).2) p) := by
  -- The request does the same with the writer whether it succeeds or fails.
  rcases hw : Writer.action (.write key time value) w with ⟨done, w'⟩ | ⟨fault, w'⟩
  · rw [Writer.perform_ok hw]
    change w.write key time value = _ at hw
    simp only [perform, Request.action, Session.writePoint, Functor.map, EStateM.map, live, hw]
    rfl
  · rw [Writer.perform_error hw]
    change w.write key time value = _ at hw
    simp only [perform, Request.action, Session.writePoint, Functor.map, EStateM.map, live, hw]
    rfl

/-- A file is finished by the writer, whose slot shows the answer. -/
theorem perform_closeWriter_of_live (live : p.session.writers.lookup id = some (.live w)) :
    p.perform (.closeWriter id) =
      ((w.perform .close).1.map fun _ => none, Session.settle id w (w.perform .close).2
        (if (w.perform .close).1 = .ok () then .closed else .aborted) p) := by
  rcases hw : Writer.action .close w with ⟨done, w'⟩ | ⟨fault, w'⟩
  · rw [Writer.perform_ok hw]
    change w.close = _ at hw
    simp only [perform, Request.action, Session.closeWriter, Functor.map, EStateM.map, live, hw]
    rfl
  · rw [Writer.perform_error hw]
    change w.close = _ at hw
    simp only [perform, Request.action, Session.closeWriter, Functor.map, EStateM.map, live, hw]
    rfl

/-- A writer that is given up never refuses that. -/
theorem perform_abortWriter_of_live (live : p.session.writers.lookup id = some (.live w)) :
    p.perform (.abortWriter id) = ((w.perform .abort).1.map fun _ => none,
      Session.settle id w (w.perform .abort).2 .aborted p) := by
  simp only [perform, Request.action, Session.abortWriter, Functor.map, EStateM.map, live]
  rfl

/-- A point is written by the writer. If that finishes it the slot is an aborted one, for only
closing closes. -/
theorem effect_writePoint (live : p.session.writers.lookup id = some (.live w)) (key : SeriesKey)
    (time : Int64) (value : Value) :
    p.Effect (.writePoint id key time value) (p.perform (.writePoint id key time value)) := by
  rw [perform_writePoint_of_live live]
  refine .performed rfl live (fun w' h => ?_) fun hw hs => ?_
  · split at h
    · contradiction
    · exact (WriterSlot.live.inj h).symm
  · have hne : Operation.write key time value ≠ .close := nofun
    rcases hw.active_or_aborted hs hne with hstate | hstate
    · rw [Session.slotOf, hstate]
      rfl
    · rw [Session.slotOf, hstate]
      rfl

/-- A close settles the slot by its answer, which tells how the writer was left. -/
theorem effect_closeWriter (live : p.session.writers.lookup id = some (.live w)) :
    p.Effect (.closeWriter id) (p.perform (.closeWriter id)) := by
  rw [perform_closeWriter_of_live live]
  refine .performed rfl live (fun w' h => ?_) fun hw hs => ?_
  · split at h <;> contradiction
  · rcases hw.closed_or_aborted hs with ⟨hanswer, hstate⟩ | ⟨fault, hanswer, hstate⟩
    · rw [Session.slotOf, hstate, hanswer, if_pos rfl]
    · rw [Session.slotOf, hstate, hanswer, if_neg nofun]

/-- An abort succeeds always and settles the slot as an aborted one. -/
theorem effect_abortWriter (live : p.session.writers.lookup id = some (.live w)) :
    p.Effect (.abortWriter id) (p.perform (.abortWriter id)) := by
  rw [perform_abortWriter_of_live live]
  refine .performed rfl live (fun w' h => by contradiction) fun hw hs => ?_
  have hstate : (w.perform .abort).2.state = .aborted := Writer.state_abort (by rw [hs]; rfl)
  rw [Session.slotOf, hstate]

/-- A writer that is not there is asked in vain, whatever it is asked for. -/
theorem perform_retired {r : Request μ} {op : Operation} (address : r.address? = some (id, op))
    (retired : ∀ w, p.session.writers.lookup id ≠ some (.live w)) :
    p.perform r = (Session.refusal (p.session.writers.lookup id) op, p) := by
  rcases hslot : p.session.writers.lookup id with _ | w | _ | _
  case some.live => exact absurd hslot (retired w)
  -- Without a number, closed or aborted: the answer depends on that only for a close.
  all_goals
    cases r with
    | createSchema | releaseSchema | openWriter => contradiction
    | writePoint | closeWriter | abortWriter =>
      obtain ⟨rfl, rfl⟩ := Prod.mk.inj (Option.some.inj address)
      simp only [perform, Request.action, Session.writePoint, Session.closeWriter,
        Session.abortWriter, Functor.map, EStateM.map, hslot]
      rfl

/-- A request to a writer is performed by it if it is there, and refused otherwise. -/
theorem effect_of_address {r : Request μ} {op : Operation} (address : r.address? = some (id, op)) :
    p.Effect r (p.perform r) := by
  by_cases hlive : ∃ w, p.session.writers.lookup id = some (.live w)
  · obtain ⟨w, live⟩ := hlive
    cases r with
    | createSchema | releaseSchema | openWriter => contradiction
    | writePoint other key time value =>
      obtain ⟨rfl, -⟩ := Prod.mk.inj (Option.some.inj address)
      exact effect_writePoint live key time value
    | closeWriter other =>
      obtain ⟨rfl, -⟩ := Prod.mk.inj (Option.some.inj address)
      exact effect_closeWriter live
    | abortWriter other =>
      obtain ⟨rfl, -⟩ := Prod.mk.inj (Option.some.inj address)
      exact effect_abortWriter live
  · have retired : ∀ w, p.session.writers.lookup id ≠ some (.live w) := fun w hw => hlive ⟨w, hw⟩
    rw [perform_retired address retired]
    exact .refused address retired

/-- What a request does. -/
theorem effect (p : Workplace μ) (r : Request μ) : p.Effect r (p.perform r) := by
  cases r with
  | createSchema key schema => exact p.effect_createSchema key schema
  | releaseSchema id => exact p.effect_releaseSchema id
  | openWriter place schemas options => exact p.effect_openWriter place schemas options
  | writePoint | closeWriter | abortWriter => exact effect_of_address rfl

end Workplace

end SeriesFile
