import SeriesFile.Proofs.Requests

/-!
# Writers of a session keep to themselves

A writer of a session does what it would do alone, on a file of its own and asked for nothing but
what is addressed to it (`Workplace.writers_isolated`). The session remembers of it exactly what
there is to know: as long as it is open the writer itself, and then whether it was closed or given
up.

One request keeps this of every writer (`Workplace.Tracks.perform`), whoever it is addressed to, as
long as no two writers are opened on one file. The media of the files may fail as they like: a
writer of its own would be given the same medium, and would see it fail in the same way.
-/

namespace SeriesFile

section

variable {μ : Type} [Sink μ] [Compressor] [Logarithm]

/-! ### Writers that were opened -/

namespace Workplace

/-- What requests ask of the writer with a number, and what it answers. -/
def dialogue (id : Nat) (p : Workplace μ) :
    List (Request μ) → List (Operation × Except Fault Unit)
  | [] => []
  | r :: requests =>
    let (answer, p) := p.perform r
    ((r.operation? id).map fun op => (op, answer.map fun _ => ())).toList ++
      dialogue id p requests

end Workplace

/-- A writer that a request has opened. -/
structure OpenedWriter (μ : Type) [Sink μ] where
  id : Nat
  grant : Grant μ
  /-- The schemas that its numbers stood for when it was opened. -/
  registry : Registry
  options : Options
  /-- What it was asked for since then, and what the session answered. -/
  dialogue : List (Operation × Except Fault Unit)

namespace OpenedWriter

/-- The file of the disk that the writer writes into, if there is one. -/
def file? (o : OpenedWriter μ) : Option String :=
  o.grant.file?

def operations (o : OpenedWriter μ) : List Operation :=
  o.dialogue.map Prod.fst

def answers (o : OpenedWriter μ) : List (Except Fault Unit) :=
  o.dialogue.map Prod.snd

/-- A writer of its own, over the same schemas and with the same medium, before it is asked for
anything. -/
def alone (o : OpenedWriter μ) : Except (Fault × OpenFile μ) (Writer (OpenFile μ)) :=
  Writer.start (OpenFile.new o.grant) o.registry o.options

/-- Whether a writer of its own is still open when it was asked for the same. -/
def isActive (o : OpenedWriter μ) : Bool :=
  match o.alone with
  | .ok w => (w.after o.operations).state = .active
  | .error _ => false

end OpenedWriter

namespace Workplace

/-- The writer that a request opens, if it does, with what it is asked for later. -/
def opened? (p : Workplace μ) (r : Request μ) (later : List (Request μ)) :
    Option (OpenedWriter μ) :=
  match r with
  | .openWriter place schemas options =>
    match p.perform r, p.session.registryOf schemas, place.grant? with
    | (.ok (some id), p), .ok registry, some g =>
      some ⟨id, g, registry, options, p.dialogue id later⟩
    | _, _, _ => none
  | _ => none

/-- A request that was answered by a number has opened the writer that bears it. -/
theorem opened?_of_perform {p q : Workplace μ} {place : Place μ} {g : Grant μ}
    {schemas : List Nat} {options : Options} {registry : Registry} {id : Nat}
    (hperform : p.perform (.openWriter place schemas options) = (.ok (some id), q))
    (hregistry : p.session.registryOf schemas = .ok registry)
    (hgrant : place.grant? = some g) (later : List (Request μ)) :
    p.opened? (.openWriter place schemas options) later =
      some ⟨id, g, registry, options, q.dialogue id later⟩ := by
  simp only [opened?, hperform, hregistry, hgrant]

/-- The writers that requests open, in order. -/
def openings (p : Workplace μ) : List (Request μ) → List (OpenedWriter μ)
  | [] => []
  | r :: requests => (p.opened? r requests).toList ++ openings (p.perform r).2 requests

/-! ### One request -/

/-- A session knows a writer by a number, the disk has what its file received, and no other writer
writes into that file. -/
structure Tracks (p : Workplace μ) (id : Nat) (w : Writer (OpenFile μ)) : Prop where
  reachable : w.Reachable
  issued : id < p.session.nextId
  slot : p.session.writers.lookup id = some (Session.slotOf w)
  file : ∀ name, w.output.sink.file? = some name →
    p.disk.read? name = some (Sink.accepted (Session.fileOf w).medium)
  others : ∀ name, w.output.sink.file? = some name → ∀ other v, other ≠ id →
    p.session.writers.lookup other = some (.live v) → v.output.sink.file? ≠ some name

end Workplace

/-- The file of a writer stays, and so does what its medium has accepted. -/
theorem Writer.past_perform (w : Writer (OpenFile μ)) (op : Operation) :
    (w.perform op).2.output.sink.Past w.output.sink.file?
      (Sink.accepted w.output.sink.medium) :=
  (OpenFile.keeps_past _ _).perform ⟨rfl, List.prefix_rfl⟩ op

/-- Through any number of operations a writer stays on its file. -/
theorem Writer.file?_after (w : Writer (OpenFile μ)) (ops : List Operation) :
    (w.after ops).output.sink.file? = w.output.sink.file? := by
  induction ops generalizing w with
  | nil => rfl
  | cons op ops ih => exact (ih _).trans (w.past_perform op).1

namespace Workplace

variable {p : Workplace μ} {id : Nat} {w : Writer (OpenFile μ)}

namespace Tracks

/-- The session has a writer exactly as long as it is open. -/
theorem active_of_live (h : p.Tracks id w) {v : Writer (OpenFile μ)}
    (hv : p.session.writers.lookup id = some (.live v)) : v = w ∧ w.state = .active := by
  have hslot := Option.some.inj (h.slot.symm.trans hv)
  -- Of the four stages closing is never seen from outside, and for the last two the slot is not a
  -- live one.
  rcases hs : w.state with _ | _ | _ | _
  · rw [Session.slotOf, hs] at hslot
    exact ⟨(WriterSlot.live.inj hslot).symm, rfl⟩
  · exact absurd hs h.reachable.state_ne_closing
  · rw [Session.slotOf, hs] at hslot
    contradiction
  · rw [Session.slotOf, hs] at hslot
    contradiction

/-- A writer whose slot is not a live one is finished: the slot says what became of the writer, and
closing is never seen from outside. -/
theorem terminal_of_retired (h : p.Tracks id w)
    (hretired : ∀ v, p.session.writers.lookup id ≠ some (.live v)) :
    w.state.isTerminal = true := by
  have hslot := h.slot
  rcases hs : w.state with _ | _ | _ | _
  · rw [Session.slotOf, hs] at hslot
    exact absurd hslot (hretired w)
  · exact absurd hs h.reachable.state_ne_closing
  · rfl
  · rfl

/-- A request to the writer itself. -/
theorem settle (h : p.Tracks id w) (active : w.state = .active) (op : Operation) :
    Tracks (Session.settle id w (w.perform op).2 (Session.slotOf (w.perform op).2) p) id
      (w.perform op).2 where
  reachable := h.reachable.after op
  issued := h.issued
  slot := by
    rw [Session.lookup_settle, if_pos rfl, h.slot]
    rfl
  -- As long as the writer was open nothing had been let go, so the disk had what its medium had
  -- accepted.
  file name hname := by
    have hpast := w.past_perform op
    have hfile : w.output.sink.file? = some name := hpast.1.symm.trans hname
    rw [hfile] at hpast
    have hread := h.file name hfile
    rw [Session.fileOf_of_active active] at hread
    exact Session.read?_receive hread (Session.fileOf_past hpast)
  others name hname other v hne hv := by
    rw [Session.lookup_settle, if_neg hne] at hv
    exact h.others name ((w.past_perform op).1.symm.trans hname) other v hne hv

/-- A request to another writer. -/
theorem settle_other (h : p.Tracks id w) {other : Nat} {v : Writer (OpenFile μ)}
    {slot : WriterSlot μ} (hne : other ≠ id)
    (hlive : p.session.writers.lookup other = some (.live v)) (op : Operation)
    (hkept : ∀ v', slot = .live v' → v' = (v.perform op).2) :
    Tracks (Session.settle other v (v.perform op).2 slot p) id w where
  reachable := h.reachable
  issued := h.issued
  slot := by
    rw [Session.lookup_settle, if_neg hne.symm]
    exact h.slot
  file name hname := by
    -- The other writer is on another file, and stays there.
    have hfile := h.others name hname other v hne hlive
    rw [← (Session.fileOf_past (v.past_perform op)).1] at hfile
    exact (Session.read?_receive_of_ne hfile).trans (h.file name hname)
  others name hname other' v' hne' hv' := by
    rw [Session.lookup_settle] at hv'
    split at hv'
    · rw [hlive] at hv'
      rw [hkept v' (Option.some.inj hv'), (v.past_perform op).1]
      exact h.others name hname other v hne hlive
    · exact h.others name hname other' v' hne' hv'

/-- A writer that is opened on another file. -/
theorem enlist (h : p.Tracks id w) {g : Grant μ} {registry : Registry} {options : Options}
    {v : Writer (OpenFile μ)} (hv : Writer.start (OpenFile.new g) registry options = .ok v)
    (hfile : ∀ name, w.output.sink.file? = some name → g.file? ≠ some name) :
    (Session.enlist g v p).Tracks id w where
  reachable := h.reachable
  issued := Nat.lt_succ_of_lt h.issued
  slot := by
    rw [Session.lookup_enlist, if_neg (Nat.ne_of_lt h.issued)]
    exact h.slot
  file name hname := (Session.read?_create_of_ne (hfile name hname)).trans (h.file name hname)
  -- The only new writer is on a file that this one is not on.
  others name hname other v' hne hv' := by
    rw [Session.lookup_enlist] at hv'
    split at hv'
    · obtain rfl := WriterSlot.live.inj (Option.some.inj hv')
      rw [Writer.file?_of_start hv]
      exact hfile name hname
    · exact h.others name hname other v' hne hv'

/-- Whatever a session is asked for, a writer does what it would do alone. -/
theorem perform (h : p.Tracks id w) (r : Request μ) (later : List (Request μ))
    (hopen : ∀ o ∈ p.opened? r later, ∀ name, w.output.sink.file? = some name →
      o.file? ≠ some name) :
    (p.perform r).2.Tracks id (w.after (r.operation? id).toList) := by
  have heffect := p.effect r
  generalize hq : p.perform r = q at heffect
  -- Of the five things that a request can do, two are for this writer: it performs, or it is
  -- finished and refuses.
  cases heffect with
  | apart address _ nextId writers =>
    rw [Request.operation?_of_none address]
    exact {
      reachable := h.reachable
      issued := Nat.lt_of_lt_of_le h.issued nextId
      slot := writers ▸ h.slot
      file := h.file
      others := fun name hname other v hne hv => h.others name hname other v hne (writers ▸ hv) }
  | unopened => exact h
  | @opened place g schemas options registry v registered granted started =>
    have hopen := hopen _ (opened?_of_perform hq registered granted later)
    exact h.enlist started hopen
  | @performed r other op v slot address live kept settled =>
    by_cases hne : other = id
    · subst hne
      obtain ⟨rfl, hactive⟩ := h.active_of_live live
      rw [Request.operation?_of_address address, settled h.reachable hactive]
      exact h.settle hactive op
    · rw [Request.operation?_of_ne address hne]
      exact h.settle_other hne live op kept
  | @refused r other op address retired =>
    by_cases hne : other = id
    · subst hne
      rw [Request.operation?_of_address address]
      show Tracks p other (w.perform op).2
      rw [Writer.perform_terminal (h.terminal_of_retired retired)]
      exact h
    · rw [Request.operation?_of_ne address hne]
      exact h

/-- A request to a writer is answered by the writer as long as it is open, and then in its place. -/
theorem perform_of_operation? (h : p.Tracks id w) {r : Request μ} {op : Operation}
    (hop : r.operation? id = some op) :
    (p.perform r).1 = (w.perform op).1.map (fun _ => none) ∧
      (w.state.isTerminal = true → p.perform r =
        (Session.refusal (some (Session.slotOf w)) op, p)) := by
  have haddress := Request.address_of_operation? hop
  have heffect := p.effect r
  generalize hq : p.perform r = q at heffect
  cases heffect with
  | apart address =>
    rw [haddress] at address
    contradiction
  | unopened | opened => contradiction
  | @performed r other op' v slot address live =>
    obtain ⟨rfl, rfl⟩ := Prod.mk.inj (Option.some.inj (haddress.symm.trans address))
    obtain ⟨rfl, hactive⟩ := h.active_of_live live
    refine ⟨rfl, fun ht => ?_⟩
    rw [hactive] at ht
    contradiction
  | @refused r other op' address retired =>
    obtain ⟨rfl, rfl⟩ := Prod.mk.inj (Option.some.inj (haddress.symm.trans address))
    rw [h.slot]
    exact ⟨Session.refusal_slotOf (h.terminal_of_retired retired) op, fun _ => rfl⟩

end Tracks

/-! ### Any number of requests -/

/-- However many requests come, a writer does and answers what it would alone. -/
theorem Tracks.after (h : p.Tracks id w) (requests : List (Request μ))
    (hopen : ∀ o ∈ p.openings requests, ∀ name, w.output.sink.file? = some name →
      o.file? ≠ some name) :
    (p.after requests).Tracks id (w.after ((p.dialogue id requests).map Prod.fst)) ∧
      (p.dialogue id requests).map Prod.snd =
        (w.performAll ((p.dialogue id requests).map Prod.fst)).1 := by
  -- By induction on the requests; each either asks this writer for an operation or leaves it alone.
  induction requests generalizing p w with
  | nil => exact ⟨h, rfl⟩
  | cons r requests ih =>
    have hstep := h.perform r requests fun o ho =>
      hopen o (List.mem_append_left _ (Option.mem_toList.2 ho))
    have hopen' : ∀ o ∈ (p.perform r).2.openings requests, ∀ name,
        w.output.sink.file? = some name → o.file? ≠ some name := fun o ho =>
      hopen o (List.mem_append_right _ ho)
    cases hop : r.operation? id with
    | none =>
      have hdialogue : p.dialogue id (r :: requests) = (p.perform r).2.dialogue id requests := by
        simp only [dialogue, hop, Option.map_none, Option.toList_none, List.nil_append]
      rw [hop] at hstep
      rw [hdialogue]
      exact ih hstep hopen'
    | some op =>
      have hanswer : (p.perform r).1.map (fun _ => ()) = (w.perform op).1 := by
        rw [(h.perform_of_operation? hop).1]
        cases (w.perform op).1 <;> rfl
      have hdialogue : p.dialogue id (r :: requests) =
          (op, (w.perform op).1) :: (p.perform r).2.dialogue id requests := by
        simp only [dialogue, hop, hanswer, Option.map_some, Option.toList_some,
          List.singleton_append]
      rw [hop] at hstep
      -- The writer stays on its file, so what is opened later is still on other files.
      obtain ⟨htracks, hanswers⟩ := ih hstep fun o ho name hname =>
        hopen' o ho name ((w.past_perform op).1.symm.trans hname)
      rw [hdialogue]
      exact ⟨htracks, congrArg ((w.perform op).1 :: ·) hanswers⟩

/-! ### Writers and their files -/

/-- Every number was given out, to one writer, and whoever is open writes into one of some files. -/
structure Orderly (p : Workplace μ) (files : List String) : Prop where
  issued : ∀ id ∈ p.session.writers.map Prod.fst, id < p.session.nextId
  nodup : (p.session.writers.map Prod.fst).Nodup
  files : ∀ id v name, p.session.writers.lookup id = some (.live v) →
    v.output.sink.file? = some name → name ∈ files

omit [Sink μ] [Compressor] [Logarithm] in
/-- A new session has no writers. -/
theorem orderly_new (disk : Disk) : Orderly ⟨(Session.new : Session μ), disk⟩ [] where
  issued := nofun
  nodup := List.nodup_nil
  files := nofun

variable {files : List String}

namespace Orderly

/-- Settling with a writer gives out no number and opens no file. -/
theorem settle (h : p.Orderly files) {v : Writer (OpenFile μ)} {slot : WriterSlot μ}
    {op : Operation} (hlive : p.session.writers.lookup id = some (.live v))
    (hkept : ∀ v', slot = .live v' → v' = (v.perform op).2) :
    Orderly (Session.settle id v (v.perform op).2 slot p) files where
  issued := by
    rw [Session.map_fst_settle]
    exact h.issued
  nodup := by
    rw [Session.map_fst_settle]
    exact h.nodup
  files other v' name hv hname := by
    rw [Session.lookup_settle] at hv
    split at hv
    · -- The slot that was settled has its writer still, on the file it was on.
      rw [hlive] at hv
      rw [hkept v' (Option.some.inj hv), (v.past_perform op).1] at hname
      exact h.files id v name hlive hname
    · exact h.files other v' name hv hname

/-- A request keeps writers in order, with one file more if it opens a writer on one. -/
theorem perform (h : p.Orderly files) (r : Request μ) (later : List (Request μ)) :
    (p.perform r).2.Orderly (((p.opened? r later).bind OpenedWriter.file?).toList ++ files) := by
  have heffect := p.effect r
  generalize hq : p.perform r = q at heffect
  -- Whatever files are added, those of the writers stay among them.
  have hmore {q : Workplace μ} (h : q.Orderly files) :
      q.Orderly (((p.opened? r later).bind OpenedWriter.file?).toList ++ files) :=
    ⟨h.issued, h.nodup, fun id v name hv hname =>
      List.mem_append_right _ (h.files id v name hv hname)⟩
  cases heffect with
  | apart address other nextId writers =>
    refine hmore ⟨?_, ?_, ?_⟩
    · exact fun id hid => Nat.lt_of_lt_of_le (h.issued id (writers ▸ hid)) nextId
    · exact writers ▸ h.nodup
    · exact fun id v name hv => h.files id v name (writers ▸ hv)
  | unopened => exact hmore h
  | @opened place g schemas options registry v registered granted started =>
    rw [opened?_of_perform hq registered granted later]
    refine ⟨fun id hid => ?_, ?_, fun id v' name hv hname => ?_⟩
    · rcases List.mem_cons.1 hid with rfl | hid
      · exact Nat.lt_succ_self _
      · exact Nat.lt_succ_of_lt (h.issued id hid)
    · exact List.nodup_cons.2 ⟨fun hid => Nat.lt_irrefl _ (h.issued _ hid), h.nodup⟩
    · rw [Session.lookup_enlist] at hv
      split at hv
      · obtain rfl := WriterSlot.live.inj (Option.some.inj hv)
        rw [Writer.file?_of_start started] at hname
        refine List.mem_append_left _ ?_
        rw [Option.bind_some, OpenedWriter.file?, hname]
        exact List.mem_singleton_self name
      · exact List.mem_append_right _ (h.files id v' name hv hname)
  | performed address live kept settled => exact hmore (h.settle live kept)
  | refused address retired => exact hmore h

/-- A writer that was just opened on a file of its own. -/
theorem tracks (h : p.Orderly files) {g : Grant μ} {registry : Registry} {options : Options}
    (hw : Writer.start (OpenFile.new g) registry options = .ok w)
    (hfresh : ∀ name, g.file? = some name → name ∉ files) :
    (Session.enlist g w p).Tracks p.session.nextId w where
  reachable := .opened hw
  issued := Nat.lt_succ_self _
  slot := by
    rw [Session.lookup_enlist, if_pos rfl, Session.slotOf, (Writer.start_ok hw).state_eq]
  -- The file was created empty, and its medium has not been given anything.
  file name hname := by
    rw [Writer.file?_of_start hw] at hname
    rw [Writer.medium_of_start hw]
    exact Session.read?_create hname
  others name hname other v hne hv heq := by
    rw [Writer.file?_of_start hw] at hname
    rw [Session.lookup_enlist, if_neg hne] at hv
    exact hfresh name hname (h.files other v name hv heq)

end Orderly

/-- What there is to know about a writer that a request opens. -/
theorem opened?_inv {r : Request μ} {later : List (Request μ)} {o : OpenedWriter μ}
    (h : p.opened? r later = some o) : ∃ w, o.alone = .ok w ∧ o.id = p.session.nextId ∧
      o.dialogue = (p.perform r).2.dialogue o.id later ∧
      (p.perform r).2 = Session.enlist o.grant w p := by
  have heffect := p.effect r
  generalize hq : p.perform r = q at heffect
  -- Only one of the five effects opens a writer.
  cases heffect with
  | apart address other =>
    cases r with
    | openWriter place schemas options => exact absurd rfl (other place schemas options)
    | _ => contradiction
  | unopened =>
    simp only [opened?, hq] at h
    contradiction
  | opened registered granted started =>
    rw [opened?_of_perform hq registered granted later] at h
    obtain rfl := Option.some.inj h
    exact ⟨_, started, rfl, rfl, rfl⟩
  | performed address | refused address =>
    cases r with
    | openWriter place schemas options => contradiction
    | _ => contradiction

/-- Every writer does what it would do alone, as long as no two are opened on one file. -/
theorem Orderly.tracks_after (h : p.Orderly files) (requests : List (Request μ))
    (distinct : ((p.openings requests).filterMap OpenedWriter.file? ++ files).Nodup)
    {o : OpenedWriter μ} (ho : o ∈ p.openings requests) :
    ∃ w, o.alone = .ok w ∧ (p.after requests).Tracks o.id (w.after o.operations) ∧
      o.answers = (w.performAll o.operations).1 := by
  induction requests generalizing p files with
  | nil => contradiction
  | cons r requests ih =>
    -- The files of all writers are that of the first request, if it opens one, and those of the
    -- others.
    have hsplit : (p.openings (r :: requests)).filterMap OpenedWriter.file? ++ files =
        ((p.opened? r requests).bind OpenedWriter.file?).toList ++
          (((p.perform r).2.openings requests).filterMap OpenedWriter.file? ++ files) := by
      rw [openings, List.filterMap_append, List.append_assoc]
      cases p.opened? r requests with
      | none => rfl
      | some o =>
        rw [Option.toList_some, Option.bind_some, List.filterMap_cons, List.filterMap_nil]
        cases o.file? <;> rfl
    rw [hsplit] at distinct
    rcases List.mem_append.1 ho with ho | ho
    · have ho := Option.mem_toList.1 ho
      obtain ⟨w, hw, hid, hdialogue, hperform⟩ := opened?_inv ho
      -- No other writer is opened on the file, neither before nor after.
      have hfresh : ∀ name, o.grant.file? = some name →
          name ∉ ((p.perform r).2.openings requests).filterMap OpenedWriter.file? ++ files := by
        intro name hname hmem
        refine (List.nodup_append.1 distinct).2.2 name ?_ name hmem rfl
        rw [Option.mem_def.1 ho, Option.bind_some, OpenedWriter.file?, hname]
        exact List.mem_singleton_self name
      have htracks : (p.perform r).2.Tracks o.id w := by
        rw [hperform, hid]
        exact h.tracks hw fun name hname hmem =>
          hfresh name hname (List.mem_append_right _ hmem)
      obtain ⟨hafter, hanswers⟩ := htracks.after requests fun o' ho' name hname hname' => by
        rw [Writer.file?_of_start hw] at hname
        exact hfresh name hname (List.mem_append_left _
          (List.mem_filterMap.2 ⟨o', ho', hname'⟩))
      refine ⟨w, hw, ?_, ?_⟩
      · rw [OpenedWriter.operations, hdialogue]
        exact hafter
      · rw [OpenedWriter.answers, OpenedWriter.operations, hdialogue]
        exact hanswers
    · exact ih (h.perform r requests)
        ((List.perm_append_comm_assoc _ _ _).nodup_iff.1 distinct) ho

/-! ### Open writers are counted -/

/-- Every number that a writer has was given to a writer that was opened. -/
theorem map_fst_perform (p : Workplace μ) (r : Request μ) (later : List (Request μ)) :
    (p.perform r).2.session.writers.map Prod.fst =
      ((p.opened? r later).map OpenedWriter.id).toList ++ p.session.writers.map Prod.fst := by
  have heffect := p.effect r
  generalize hq : p.perform r = q at heffect
  cases ho : p.opened? r later with
  | none =>
    cases heffect with
    | apart address other nextId writers => rw [writers]; rfl
    | unopened => rfl
    | opened registered granted started =>
      rw [opened?_of_perform hq registered granted later] at ho
      contradiction
    | performed address live => exact Session.map_fst_settle _ _ _ _ _
    | refused address => rfl
  | some o =>
    obtain ⟨w, -, hid, -, hperform⟩ := opened?_inv ho
    rw [hq] at hperform
    rw [hperform, Option.map_some, hid]
    rfl

/-- The numbers of all writers are those that were opened, the latest first. -/
theorem map_fst_after (p : Workplace μ) (requests : List (Request μ)) :
    (p.after requests).session.writers.map Prod.fst =
      ((p.openings requests).map OpenedWriter.id).reverse ++ p.session.writers.map Prod.fst := by
  induction requests generalizing p with
  | nil => rfl
  | cons r requests ih =>
    show ((p.perform r).2.after requests).session.writers.map Prod.fst = _
    rw [ih, p.map_fst_perform r requests, openings]
    cases p.opened? r requests with
    | none => rfl
    | some o => simp

/-- Through any number of requests writers stay in order, whatever files they come to write into. -/
theorem Orderly.after (h : p.Orderly files) (requests : List (Request μ)) :
    ∃ files', (p.after requests).Orderly files' := by
  induction requests generalizing p files with
  | nil => exact ⟨files, h⟩
  | cons r requests ih => exact ih (h.perform r requests)

omit [Sink μ] [Compressor] [Logarithm] in
/-- The open writers can be counted by their numbers. -/
theorem Orderly.liveWriters_eq (h : p.Orderly files) :
    p.session.liveWriters =
      (p.session.writers.map Prod.fst).countP fun id =>
        (p.session.writers.lookup id).any WriterSlot.isLive := by
  rw [Session.liveWriters, List.countP_map]
  refine List.countP_congr fun entry hentry => ?_
  obtain ⟨id, slot⟩ := entry
  rw [Function.comp_apply, Session.lookup_of_mem h.nodup hentry]
  rfl

/-! ### Isolation -/

/-- To its session a writer is what it would be alone. -/
structure Isolated (p : Workplace μ) (o : OpenedWriter μ) (w : Writer (OpenFile μ)) : Prop where
  alone : o.alone = .ok w
  /-- It answered what it would have answered alone. -/
  answers : o.answers = (w.performAll o.operations).1
  /-- As long as it is open the session keeps it, and then what became of it. -/
  slot : p.session.writers.lookup o.id = some (Session.slotOf (w.after o.operations))
  live : (Session.slotOf (w.after o.operations)).isLive = true ↔
    (w.after o.operations).state = .active
  /-- The disk has of its file what the medium would have accepted from it alone. -/
  file : ∀ name, o.file? = some name →
    p.disk.read? name = some (Sink.accepted (Session.fileOf (w.after o.operations)).medium)
  /-- Once it is finished no request to it does anything any more. -/
  finished : (w.after o.operations).state.isTerminal = true →
    (∀ key time value, p.perform (.writePoint o.id key time value) = (.error .handleClosed, p)) ∧
    ((.close, .ok ()) ∈ o.dialogue →
      p.perform (.closeWriter o.id) = (.error .alreadyClosed, p)) ∧
    ((.close, .ok ()) ∉ o.dialogue →
      p.perform (.closeWriter o.id) = (.error .handleClosed, p)) ∧
    p.perform (.abortWriter o.id) = (.ok none, p)

/-- A writer's slot is a live one exactly while the writer is open. -/
theorem Tracks.isLive_slotOf (h : p.Tracks id w) :
    (Session.slotOf w).isLive = true ↔ w.state = .active := by
  rcases hs : w.state with _ | _ | _ | _
  · rw [Session.slotOf, hs]
    exact ⟨fun _ => rfl, fun _ => rfl⟩
  · exact absurd hs h.reachable.state_ne_closing
  · rw [Session.slotOf, hs]
    exact iff_of_false Bool.false_ne_true WriterState.noConfusion
  · rw [Session.slotOf, hs]
    exact iff_of_false Bool.false_ne_true WriterState.noConfusion

/-- What a session tracks of a writer is all that there is to tell of it. -/
theorem Tracks.isolated {o : OpenedWriter μ} (hw : o.alone = .ok w)
    (h : p.Tracks o.id (w.after o.operations))
    (hanswers : o.answers = (w.performAll o.operations).1) : p.Isolated o w where
  alone := hw
  answers := hanswers
  slot := h.slot
  live := h.isLive_slotOf
  file name hname := by
    refine h.file name ?_
    rw [w.file?_after, Writer.file?_of_start hw]
    exact hname
  finished ht := by
    have hreachable : w.Reachable := .opened hw
    have hactive : w.state = .active := (Writer.start_ok hw).state_eq
    have hdialogue : o.dialogue = o.operations.zip (w.performAll o.operations).1 :=
      List.zip_of_prod rfl hanswers
    -- Whether a finished writer was closed shows in its dialogue.
    have hclosed : (w.after o.operations).state = .closed ↔ (.close, .ok ()) ∈ o.dialogue := by
      rw [hreachable.closed_after_iff, hactive, hdialogue]
      exact or_iff_right nofun
    have hwrite (key : SeriesKey) (time : Int64) (value : Value) :
        (Request.writePoint o.id key time value : Request μ).operation? o.id =
          some (.write key time value) := Request.operation?_of_address rfl
    have hclose : (Request.closeWriter o.id : Request μ).operation? o.id = some .close :=
      Request.operation?_of_address rfl
    have habort : (Request.abortWriter o.id : Request μ).operation? o.id = some .abort :=
      Request.operation?_of_address rfl
    refine ⟨fun key time value => (h.perform_of_operation? (hwrite key time value)).2 ht,
      fun hin => ?_, fun hout => ?_, (h.perform_of_operation? habort).2 ht⟩
    · rw [(h.perform_of_operation? hclose).2 ht, Session.slotOf, hclosed.2 hin]
      rfl
    · rw [(h.perform_of_operation? hclose).2 ht, Session.slotOf]
      rcases hs : (w.after o.operations).state with _ | _ | _ | _
      · rw [hs] at ht
        contradiction
      · rw [hs] at ht
        contradiction
      · exact absurd (hclosed.1 hs) hout
      · rfl

end Workplace

end

/-- Three writers that share a schema. One is given up after the schema was released, one is closed.
The third is given up with a chunk in memory of which its medium has room for three bytes. -/
def sampleRequests : List (Request MemorySink) := [
  .createSchema ⟨"root.a", "t"⟩ ⟨.int32, .ts2diff, .gzip⟩,
  .createSchema ⟨"root.b", "v"⟩ ⟨.double, .gorilla, .snappy⟩,
  .openWriter (Disk.place "a" .unlimited MemorySink.accepted_unlimited) [1, 2] {},
  .openWriter (Disk.place "./b" .unlimited MemorySink.accepted_unlimited) [1] {},
  .openWriter (Disk.place "c" { MemorySink.unlimited with capacity := some 10 } rfl) [1]
    { maxChunkPoints := 1 },
  .writePoint 3 ⟨"root.a", "t"⟩ 1 (.int32 7),
  .releaseSchema 1,
  .writePoint 4 ⟨"root.a", "t"⟩ 1 (.int32 8),
  .writePoint 4 ⟨"root.b", "v"⟩ 1 (.double 0),
  .abortWriter 3,
  .writePoint 3 ⟨"root.b", "v"⟩ 2 (.double 0),
  .writePoint 4 ⟨"root.a", "t"⟩ 2 (.int32 9),
  .writePoint 5 ⟨"root.a", "t"⟩ 1 (.int32 1),
  .abortWriter 5,
  .closeWriter 4]

/-- The three paths lead to three files. -/
theorem files_sampleRequests :
    (Workplace.openings ⟨Session.new, Disk.empty⟩ sampleRequests).filterMap OpenedWriter.file? =
      ["a", "b", "c"] := by
  decide +kernel

end SeriesFile
