import SeriesFile.Proofs.Accepting
import SeriesFile.Proofs.Sealed

/-!
# Opening and closing

A writer that was just opened holds the ledger of its registry. Closing a writer flushes what it
holds and adds the footer and the tail: then the file is the one of its runs (`File`). If this
fails, the file ends before its last byte; after that only the sink can still fail to pass it on
(`Keeps.close_ends`).

Every operation on an open writer has one of three outcomes (`Outcome`): the writer goes on as the
ledger does, it is given up, or its file is complete. A writer that is not open any more stays as it
is.
-/

namespace SeriesFile

namespace Writer

variable {σ : Type} [Sink σ] {o : Opening σ} {w : Writer σ}

/-! ### Opening -/

/-- A writer that cannot be opened leaves a front of the head behind, from which no file is read. -/
theorem start_error {sink sink' : σ} {registry : Registry} {options : Options} {fault : Fault}
    (h : start sink registry options = .error (fault, sink')) :
    ∃ bytes, Sink.accepted sink' = Sink.accepted sink ++ bytes ∧ Unfinished bytes := by
  -- Whichever of the two pieces of the head fails, what was taken is a front of the head.
  suffices ∃ stream bytes, stream.sink = sink' ∧ (Stream.start sink).Extends stream bytes ∧
      bytes <+: Frame.head by
    obtain ⟨stream, bytes, rfl, he, hb⟩ := this
    refine ⟨bytes, he.accepted, Unfinished.of_body (fun item hi => (List.not_mem_nil hi).elim) ?_⟩
    exact hb.trans (List.prefix_append _ _)
  unfold start at h
  split at h
  · rename_i hmagic
    obtain ⟨front, hp, -, he⟩ := Stream.put_error hmagic
    exact ⟨_, front, (Prod.mk.inj (Except.error.inj h)).2, he, hp.trans (List.prefix_append _ _)⟩
  · rename_i hmagic
    split at h
    · rename_i hversion
      obtain ⟨front, hp, -, he⟩ := Stream.put_error hversion
      exact ⟨_, _, (Prod.mk.inj (Except.error.inj h)).2, (Stream.put_ok hmagic).trans he,
        (List.prefix_append_right_inj _).2 hp⟩
    · contradiction

variable [Compressor]

/-- A writer that was just opened holds no points. -/
theorem start_holds {sink : σ} {registry : Registry} {options : Options}
    (h : start sink registry options = .ok w) :
    Holds ⟨sink, registry, options⟩ .active [] (Ledger.new registry) w ∧ ∀ key, ¬w.Filled key := by
  unfold start at h
  split at h
  · contradiction
  rename_i hmagic
  split at h
  · contradiction
  rename_i hversion
  obtain rfl := Except.ok.inj h
  refine ⟨⟨⟨rfl, rfl, rfl, rfl, rfl, ⟨_, rfl, ?_⟩, fun _ item hi => (List.not_mem_nil hi).elim⟩,
    Indexed.empty registry, ?_, .of_new rfl rfl rfl rfl⟩, ?_⟩
  · have hhead := (Stream.put_ok hmagic).trans (Stream.put_ok hversion)
    exact hhead
  · intro key
    rw [Ledger.new, SeriesTable.find?_map, SeriesTable.find?_map]
    -- Series by series, an empty buffer keeps an empty account.
    cases registry.find? key with
    | none => exact .unknown _
    | some schema => exact .known (Buffer.keeps_new schema)
  · rintro key ⟨b, hb, hfilled⟩
    rw [SeriesTable.find?_map] at hb
    obtain ⟨schema, -, rfl⟩ := Option.map_eq_some_iff.1 hb
    contradiction

/-- A writer that was just opened holds the ledger of its registry, with no runs. -/
theorem start_ok {sink : σ} {registry : Registry} {options : Options}
    (h : start sink registry options = .ok w) :
    Keeps ⟨sink, registry, options⟩ .active (Ledger.new registry) w :=
  ⟨[], (start_holds h).1⟩

/-! ### The rest of the file -/

/-- Once nothing is buffered, the points of a ledger are those of the runs. -/
theorem Holds.points_eq {state : WriterState} {runs : List Run} {ledger : Ledger}
    (h : Holds o state runs ledger w) (hempty : ∀ key, ¬w.Filled key) (key : SeriesKey) :
    ledger.points key = Run.pointsOf key runs := by
  have haccount := h.accounts key
  cases hfind : w.buffers.find? key with
  | none =>
    rw [hfind] at haccount
    have hschema := haccount.schema_eq_none
    -- A series without a buffer is not in the registry, and every run is.
    have hnone : (runs.filter fun run => run.key = key) = [] := by
      apply List.filter_eq_nil_iff.2
      intro run hr hkey
      have hrun := h.indexed.schemas run hr
      rw [of_decide_eq_true hkey, hschema] at hrun
      contradiction
    rw [Ledger.points, haccount.account_eq_none, Run.pointsOf, hnone]
    rfl
  | some b =>
    obtain ⟨schema, accepted, -, hledger, hkeeps⟩ := h.keeps_buffer hfind
    rw [Ledger.points, hledger]
    show accepted = _
    rw [hkeeps.points, Buffer.points_of_isEmpty (isEmpty_of_not_filled (hempty key) hfind),
      List.append_nil]

variable [Logarithm]

/-- A file that is complete and holds the points of a ledger. -/
def File (o : Opening σ) (ledger : Ledger) (bytes : Bytes) : Prop :=
  ∃ runs index, Sealed o.registry o.options.bloomRateBits runs index ∧
    (∀ key, ledger.points key = Run.pointsOf key runs) ∧
    bytes = (sealedImage o.registry o.options.bloomRateBits runs index).file

/-- The sink of a writer took a complete file. -/
def Finished (o : Opening σ) (ledger : Ledger) (w : Writer σ) : Prop :=
  ∃ bytes, File o ledger bytes ∧ w.Took o bytes

/-- Closing a writer gets the last byte of the tail into the sink. -/
def Completes (w : Writer σ) : Prop :=
  ∃ w', complete { w with state := .closing } = .ok () w'

omit [Compressor] [Logarithm] in
/-- The tail says what was written before it. -/
theorem putTail_ends {bytes : Bytes} {footerLength : Nat} (h : w.Wrote o bytes) :
    Ends (putTail footerLength) w
      (fun _ w' => (∃ output, w' = { w with output }) ∧ w'.Took o
        (bytes ++ (Frame.Tail.mk (Crc32.hash bytes) (UInt32.ofNat footerLength)).write))
      (fun w' => w'.state = w.state ∧ ∃ front,
        front <+: (Frame.Tail.mk (Crc32.hash bytes) (UInt32.ofNat footerLength)).write ∧
        front ≠ (Frame.Tail.mk (Crc32.hash bytes) (UInt32.ofNat footerLength)).write ∧
        w'.Took o (bytes ++ front)) := by
  obtain ⟨stream, ho, he⟩ := h
  -- The stream kept the checksum of everything before the tail.
  have hchecksum : stream.checksum = Crc32.hash bytes := by
    rw [Stream.checksum, he.register]
    rfl
  have hput : putTail footerLength w =
      put (Frame.Tail.mk (Crc32.hash bytes) (UInt32.ofNat footerLength)).write w := by
    simp only [putTail, ho, hchecksum]
  rw [Ends, hput]
  refine (put_ends ⟨stream, ho, he⟩).mono (fun _ w' h' => ?_) fun w' h' => ?_
  · obtain ⟨stream, rfl, hw⟩ := h'
    exact ⟨⟨_, rfl⟩, hw.took⟩
  · obtain ⟨hstate, front, hp, hne, hw⟩ := h'
    exact ⟨hstate, front, hp, hne, hw.took⟩

omit [Compressor] [Logarithm] in
/-- A file of which the end is missing is torn. -/
theorem torn_of_front {image : Image} (hs : image.Sound) {bytes : Bytes}
    (hstate : w.state ≠ .closed) (hw : w.Took o bytes) (hb : bytes <+: image.file)
    (hl : bytes.length < image.file.length) : Torn o w :=
  ⟨hstate, bytes, hw, fun _ => ⟨image, hs, hb, fun heq => Nat.ne_of_lt hl (congrArg _ heq)⟩⟩

/-- A writer that held some runs and nothing else has become another by sealing their file. Of what
it counted nothing has changed. -/
structure SealedFrom (o : Opening σ) (runs : List Run) (ledger : Ledger) (w w' : Writer σ) :
    Prop where
  holds : Holds o .closing runs ledger w
  empty : ∀ key, ¬w.Filled key
  sealed : Sealed o.registry o.options.bloomRateBits runs w.index
  took : w'.Took o (sealedImage o.registry o.options.bloomRateBits runs w.index).file
  counts : w'.bufferedBytes = w.bufferedBytes ∧ w'.pointsWritten = w.pointsWritten ∧
    w'.chunksFlushed = w.chunksFlushed

/-- What was sealed is a file of the ledger, since nothing was left in the buffers. -/
theorem SealedFrom.file {runs : List Run} {ledger : Ledger} {w' : Writer σ}
    (h : SealedFrom o runs ledger w w') :
    File o ledger (sealedImage o.registry o.options.bloomRateBits runs w.index).file :=
  ⟨runs, w.index, h.sealed, h.holds.points_eq h.empty, rfl⟩

/-- Completing a file writes what is left, and seals it. -/
theorem Holds.complete_writes {runs : List Run} {ledger : Ledger}
    (h : Holds o .closing runs ledger w) :
    Ends complete w
      (fun _ w' => w'.state = .closing ∧ ∃ new w₁, Flushes w new w₁ ∧
        SealedFrom o (runs ++ new) ledger w₁ w') (Torn o) := by
  unfold complete
  refine (h.flushAll_writes.mono (fun _ _ h' => h') fun _ h' => h'.toTorn).bind fun _ w₁ h₁ => ?_
  obtain ⟨new, hflushes, h₁⟩ := h₁
  refine Ends.get (Ends.modify ?_)
  let image := sealedImage o.registry o.options.bloomRateBits (runs ++ new) w₁.index
  have hfooter : w₁.footer = image.footer := by
    rw [footer, h₁.registry_eq, h₁.options_eq]
    rfl
  have hclosing : w₁.state ≠ .closed := h₁.not_closed
  have hwrote : Wrote o (Frame.head ++ BodyItem.writeAll image.items)
    { w₁ with index := SeriesTable.empty } := h₁.wrote
  simp only [hfooter]
  split
  · -- The footer is too long for the tail. Nothing of it was written, so the file ends with its
    -- body.
    exact .error (bind_error rfl) (h₁.torn_body rfl rfl)
  rename_i hlength
  have hsealed : Sealed o.registry o.options.bloomRateBits (runs ++ new) w₁.index :=
    ⟨h₁.indexed, Nat.lt_of_not_le hlength⟩
  refine ((put_ends hwrote).mono (fun _ w₂ h₂ => h₂) fun w₂ h₂ => ?_).bind fun _ w₂ h₂ => ?_
  · -- The sink fails within the footer: the tail is missing.
    obtain ⟨hstate, front, hp, -, hw⟩ := h₂
    have hfront : Frame.head ++ BodyItem.writeAll image.items ++ front <+: image.covered :=
      (List.prefix_append_right_inj _).2 hp
    have hlonger : image.covered.length < image.file.length := by
      rw [Image.file, List.length_append, Frame.length_write_tail]
      exact Nat.lt_add_of_pos_right (by decide)
    exact torn_of_front hsealed.sound (hstate ▸ hclosing) hw.took
      (hfront.trans (List.prefix_append _ _)) (Nat.lt_of_le_of_lt hfront.length_le hlonger)
  · -- The footer is written, and the tail is next.
    obtain ⟨stream, rfl, hw⟩ := h₂
    refine (putTail_ends hw).mono (fun _ w₃ h₃ => ?_) fun w₃ h₃ => ?_
    · obtain ⟨⟨output, rfl⟩, htook⟩ := h₃
      exact ⟨h₁.state_eq, new, w₁, hflushes, h₁, hflushes.not_filled, hsealed, htook, rfl, rfl, rfl⟩
    · -- Only a proper front of the tail is there, so the last byte is missing.
      obtain ⟨hstate, front, hp, hne, hw⟩ := h₃
      have hfront : image.covered ++ front <+: image.file := (List.prefix_append_right_inj _).2 hp
      have hshorter : front.length < image.tail.write.length :=
        Nat.lt_of_le_of_ne hp.length_le fun heq => hne (hp.eq_of_length heq)
      have hlonger : (image.covered ++ front).length < image.file.length := by
        rw [Image.file, List.length_append, List.length_append]
        exact Nat.add_lt_add_left hshorter _
      exact torn_of_front hsealed.sound (hstate ▸ hclosing) hw hfront hlonger

/-- Completing a file, without how the last runs came about. -/
theorem Holds.complete_ends {runs : List Run} {ledger : Ledger}
    (h : Holds o .closing runs ledger w) :
    Ends complete w
      (fun _ w' => w'.state = .closing ∧ ∃ runs' w₁, SealedFrom o runs' ledger w₁ w') (Torn o) :=
  h.complete_writes.mono (fun _ _ ⟨hstate, _, _, _, hfrom⟩ => ⟨hstate, _, _, hfrom⟩) fun _ h' => h'

/-! ### Closing -/

omit [Compressor] [Logarithm] in
/-- What a sink is asked for after the file changes nothing in what it took. -/
theorem ask_ends {request : Stream σ → Except IoCause Unit × Stream σ} {bytes : Bytes}
    (hr : ∀ s, Stream.Extends s (request s).2 []) (h : w.Took o bytes) :
    Ends (ask request) w (fun _ w' => (∃ output, w' = { w with output }) ∧ w'.Took o bytes)
      (fun w' => (∃ output, w' = { w with output }) ∧ w'.Took o bytes) := by
  cases ho : w.output with
  | released sink =>
    have hw : ask request w = .error .handleClosed w := by simp only [ask, ho]
    exact .error hw ⟨⟨w.output, rfl⟩, h⟩
  | attached stream =>
    have hr := (hr stream).accepted
    rw [List.append_nil] at hr
    rw [Took, ho] at h
    rcases hask : request stream with ⟨cause | done, after⟩
    · have hw : ask request w =
          .error (.writeFailure cause) { w with output := .attached after } := by
        simp only [ask, ho, hask]
      rw [hask] at hr
      exact .error hw ⟨⟨_, rfl⟩, hr.trans h⟩
    · have hw : ask request w = .ok () { w with output := .attached after } := by
        simp only [ask, ho, hask]
      rw [hask] at hr
      exact .ok hw ⟨⟨_, rfl⟩, hr.trans h⟩

omit [Compressor] [Logarithm] in
/-- Giving up a writer that is not retired yet ends in the state of a writer that was given up. -/
theorem state_abort (h : w.state.isTerminal = false) : w.abort.state = .aborted := by
  rw [abort, h]
  rfl

/-- Once the sink has taken the whole file, this stays so whatever it answers. -/
theorem finish_ends {w₁ : Writer σ} {bytes : Bytes} (hc : complete w = .ok () w₁)
    (h : w₁.Took o bytes) :
    Ends finish w (fun _ w' => (∃ output, w' = { w₁ with output }) ∧ w'.Took o bytes)
      (fun w' => (∃ output, w' = { w₁ with output }) ∧ w'.Took o bytes) := by
  refine Ends.after hc ((ask_ends Stream.flush_extends h).bind fun _ w₂ h₂ => Ends.get ?_)
  obtain ⟨⟨output, rfl⟩, htook⟩ := h₂
  split
  · exact ask_ends Stream.sync_extends htook
  · exact Ends.pure ⟨⟨output, rfl⟩, htook⟩

/-- Closing an open writer succeeds if finishing the file does. -/
theorem close_ok {w₁ : Writer σ} (hs : w.state = .active)
    (hf : finish { w with state := .closing } = .ok () w₁) :
    close w = .ok () { w₁ with state := .closed } := by
  simp only [close, hs, orAbort, hf]

/-- If finishing the file fails, the writer is given up. -/
theorem close_error {w₁ : Writer σ} {fault : Fault} (hs : w.state = .active)
    (hf : finish { w with state := .closing } = .error fault w₁) :
    close w = .error fault w₁.abort := by
  simp only [close, hs, orAbort, hf]

omit [Logarithm] in
/-- A writer that has begun to close holds what it held. -/
theorem Holds.closing {runs : List Run} {ledger : Ledger} (h : Holds o .active runs ledger w) :
    Holds o .closing runs ledger { w with state := .closing } :=
  { h with state_eq := rfl, open_ := rfl, tallies := { h.tallies with } }

/-- What closing does depends on whether it gets the last byte of the tail into the sink. -/
theorem Holds.close_writes {runs : List Run} {ledger : Ledger}
    (h : Holds o .active runs ledger w) :
    Ends close w
      (fun _ w' => w'.state = .closed ∧ w.Completes ∧ ∃ new w₁,
        Flushes { w with state := .closing } new w₁ ∧ SealedFrom o (runs ++ new) ledger w₁ w')
      (fun w' => w'.state = .aborted ∧
        (w.Completes ∧ Finished o ledger w' ∨ ¬w.Completes ∧ Torn o w')) := by
  have hends := h.closing.complete_writes
  cases hcomplete : complete { w with state := .closing } with
  | error fault w₁ =>
    -- The tail did not get into the sink: the file is torn.
    have hlost := (hends.of_error hcomplete).abort
    refine .error (close_error h.state_eq (bind_error hcomplete))
      ⟨hlost.aborted, .inr ⟨?_, hlost.toTorn⟩⟩
    rintro ⟨w', hw'⟩
    rw [hcomplete] at hw'
    contradiction
  | ok done w₁ =>
    -- From here the file is complete. What can still fail is to pass it on, and this leaves it
    -- complete.
    obtain ⟨hstate, new, w₀, hflushes, hfrom⟩ := hends.of_ok hcomplete
    have hfinish := finish_ends hcomplete hfrom.took
    cases hf : finish { w with state := .closing } with
    | ok done w₂ =>
      obtain ⟨⟨output, rfl⟩, htook⟩ := hfinish.of_ok hf
      exact .ok (close_ok h.state_eq hf)
        ⟨rfl, ⟨w₁, hcomplete⟩, new, w₀, hflushes, { hfrom with took := htook }⟩
    | error fault w₂ =>
      obtain ⟨⟨output, rfl⟩, htook⟩ := hfinish.of_error hf
      refine .error (close_error h.state_eq hf) ⟨state_abort (by rw [hstate]; rfl),
        .inl ⟨⟨w₁, hcomplete⟩, _, hfrom.file, ?_⟩⟩
      rw [Took, accepted_abort]
      exact htook

/-- Closing, with the chunks that were flushed for it instead of all that is known of them. -/
theorem Holds.close_drains {runs : List Run} {ledger : Ledger}
    (h : Holds o .active runs ledger w) :
    Ends close w
      (fun _ w' => w'.state = .closed ∧ w.Completes ∧ ∃ new w₁,
        Drains { w with state := .closing } new w₁ ∧ SealedFrom o (runs ++ new) ledger w₁ w')
      (fun w' => w'.state = .aborted ∧
        (w.Completes ∧ Finished o ledger w' ∨ ¬w.Completes ∧ Torn o w')) :=
  h.close_writes.mono (fun _ _ ⟨hstate, hcompletes, new, w₁, hflushes, hfrom⟩ =>
    ⟨hstate, hcompletes, new, w₁, hflushes.drains, hfrom⟩) fun _ h' => h'

/-- Closing, with some runs of the ledger. -/
theorem Holds.close_ends {runs : List Run} {ledger : Ledger} (h : Holds o .active runs ledger w) :
    Ends close w
      (fun _ w' => w'.state = .closed ∧ w.Completes ∧ ∃ runs' w₁, SealedFrom o runs' ledger w₁ w')
      (fun w' => w'.state = .aborted ∧
        (w.Completes ∧ Finished o ledger w' ∨ ¬w.Completes ∧ Torn o w')) :=
  h.close_drains.mono (fun _ _ ⟨hstate, hcompletes, _, _, _, hfrom⟩ =>
    ⟨hstate, hcompletes, _, _, hfrom⟩) fun _ h' => h'

/-- Closing a writer that holds a ledger: it succeeds with the complete file of the ledger in the
sink, or the writer is given up, and whether the file is complete then is a matter of the last byte
of the tail alone. -/
theorem Keeps.close_ends {ledger : Ledger} (h : Keeps o .active ledger w) :
    Ends close w
      (fun _ w' => w'.state = .closed ∧ w.Completes ∧ Finished o ledger w')
      (fun w' => w'.state = .aborted ∧
        (w.Completes ∧ Finished o ledger w' ∨ ¬w.Completes ∧ Torn o w')) := by
  obtain ⟨runs, h⟩ := h
  exact h.close_ends.mono (fun _ _ ⟨hstate, hcompletes, _, _, hfrom⟩ =>
    ⟨hstate, hcompletes, _, hfrom.file, hfrom.took⟩) fun _ h' => h'

/-! ### Operations -/

/-- Whether an operation has failed is told by its answer. -/
theorem Ends.perform {op : Operation} {Q : Unit → Writer σ → Prop} {E : Writer σ → Prop}
    (h : Ends (action op) w Q E) :
    (w.perform op).1 = .ok () ∧ Q () (w.perform op).2 ∨
      ∃ fault, (w.perform op).1 = .error fault ∧ E (w.perform op).2 := by
  cases hw : action op w with
  | ok done w' =>
    rw [perform_ok hw]
    exact .inl ⟨rfl, h.of_ok hw⟩
  | error fault w' =>
    rw [perform_error hw]
    exact .inr ⟨fault, rfl, h.of_error hw⟩

/-- What an operation does to an open writer. -/
inductive Outcome (o : Opening σ) (ledger : Ledger) (w : Writer σ) (op : Operation) : Prop
  /-- The writer answers as the ledger does and holds what it holds. -/
  | kept (incomplete : op ≠ .close) (answer : (w.perform op).1 = (ledger.perform op).1)
      (keeps : Keeps o .active (ledger.perform op).2 (w.perform op).2)
  /-- The writer is given up with its file torn. -/
  | lost (incomplete : op = .close → ¬w.Completes) (lost : Lost o (w.perform op).2)
  /-- The file is complete. -/
  | finished (closes : op = .close) (completes : w.Completes)
      (terminal : (w.perform op).2.state.isTerminal = true)
      (finished : Finished o ledger (w.perform op).2)

/-- The answer to an operation that comes too late. -/
def lateAnswer (state : WriterState) : Operation → Except Fault Unit
  | .close => .error (if state = .closed then .alreadyClosed else .handleClosed)
  | .abort | .drop => .ok ()
  | .write .. | .writeRecord .. | .flush => .error .handleClosed

/-- A writer that is not open any more says so and stays as it is. -/
theorem perform_late (h : w.state.isTerminal = true) (op : Operation) :
    w.perform op = (lateAnswer w.state op, w) := by
  have hopen : w.state ≠ .active := by
    intro heq
    rw [heq] at h
    contradiction
  cases op with
  | write key time value => exact perform_error (bind_error (ensureOpen_error hopen))
  | writeRecord device time fields => exact perform_error (bind_error (ensureOpen_error hopen))
  | flush => exact perform_error (bind_error (ensureOpen_error hopen))
  | close =>
    -- Closing looks at the state itself: a second time is told from a writer that was given up.
    rcases hs : w.state with _ | _ | _ | _
    · contradiction
    · rw [hs] at h
      contradiction
    · have hclose : action .close w = .error .alreadyClosed w := by simp only [action, close, hs]
      exact perform_error hclose
    · have hclose : action .close w = .error .handleClosed w := by simp only [action, close, hs]
      exact perform_error hclose
  | abort => exact congrArg (Prod.mk _) (if_pos h)
  | drop => exact congrArg (Prod.mk _) (if_pos h)

/-- A retired writer stays as it is. -/
theorem perform_terminal (h : w.state.isTerminal = true) (op : Operation) :
    (w.perform op).2 = w := by
  rw [perform_late h]

/-- A retired writer stays as it is under any operations. -/
theorem after_terminal (h : w.state.isTerminal = true) (ops : List Operation) :
    w.after ops = w := by
  induction ops with
  | nil => rfl
  | cons op ops ih => rw [after_cons, perform_terminal h, ih]

namespace Keeps

variable {ledger ledger' : Ledger}

/-- An operation that the ledger accepts keeps the writer in step with it, or loses the writer. -/
theorem outcome_of_ends {op : Operation} (hne : op ≠ .close)
    (hl : ledger.perform op = (.ok (), ledger'))
    (h : Ends (action op) w (fun _ w' => Keeps o .active ledger' w') (Lost o)) :
    Outcome o ledger w op := by
  rcases h.perform with ⟨hanswer, hkeeps⟩ | ⟨fault, -, hlost⟩
  · exact .kept hne (by rw [hanswer, hl]) (by rwa [hl])
  · exact .lost (fun heq => absurd heq hne) hlost

/-- An operation that the ledger refuses is refused by the writer, for the same reason, and changes
nothing. -/
theorem outcome_of_refused (h : Keeps o .active ledger w) {op : Operation} {fault : Fault}
    (hne : op ≠ .close) (hl : ledger.perform op = (.error fault, ledger))
    (hw : action op w = .error fault w) : Outcome o ledger w op := by
  refine .kept hne ?_ ?_
  · rw [perform_error hw, hl]
  · rw [perform_error hw, hl]
    exact h

/-- Closing finishes the file or loses the writer. -/
theorem outcome_of_close (h : Keeps o .active ledger w) : Outcome o ledger w .close := by
  have hends : Ends (action .close) w _ _ := h.close_ends
  rcases hends.perform with ⟨-, hstate, hcompletes, hfinished⟩ | ⟨fault, -, haborted, hrest⟩
  · exact .finished rfl hcompletes (by rw [hstate]; rfl) hfinished
  · rcases hrest with ⟨hcompletes, hfinished⟩ | ⟨hincomplete, htorn⟩
    · exact .finished rfl hcompletes (isTerminal_of_aborted haborted) hfinished
    · exact .lost (fun _ => hincomplete) ⟨htorn, haborted⟩

omit [Logarithm] in
/-- A writer that goes out of scope without being closed leaves a torn file. -/
theorem lost_drop (h : Keeps o .active ledger w) : Lost o w.drop := by
  obtain ⟨runs, h⟩ := h
  have hdrop : w.drop = { w with state := .aborted } := by
    rw [drop, h.state_eq]
    rfl
  have htorn : Torn o w := h.torn_body rfl rfl
  obtain ⟨bytes, htook, hbytes⟩ := htorn.unfinished
  rw [hdrop]
  exact ⟨⟨nofun, bytes, htook, hbytes⟩, rfl⟩

/-- Whatever an open writer is asked for, it has one of the three outcomes. -/
theorem outcome (h : Keeps o .active ledger w) (op : Operation) : Outcome o ledger w op := by
  -- What the ledger answers decides between a refusal and the rest; only then can a sink fail.
  have hrefused {fault : Fault} : ledger.settle (.error fault) = (.error fault, ledger) := rfl
  cases op with
  | write key time value =>
    cases hl : ledger.accept key time value with
    | error fault =>
      exact h.outcome_of_refused (by simp) (by rw [Ledger.perform, hl, hrefused])
        (h.write_refused hl)
    | ok ledger' =>
      exact outcome_of_ends (by simp) (by rw [Ledger.perform, hl, Ledger.settle])
        (h.write_ends hl)
  | writeRecord device time fields =>
    cases hl : ledger.acceptRecord device time fields with
    | error fault =>
      exact h.outcome_of_refused (by simp) (by rw [Ledger.perform, hl, hrefused])
        (h.writeRecord_refused hl)
    | ok ledger' =>
      exact outcome_of_ends (by simp) (by rw [Ledger.perform, hl, Ledger.settle])
        (h.writeRecord_ends hl)
  | flush => exact outcome_of_ends (by simp) rfl h.flush_ends
  | close => exact h.outcome_of_close
  | abort =>
    obtain ⟨runs, h⟩ := h
    exact .lost (by simp) (h.torn_body rfl rfl).abort
  | drop => exact .lost (by simp) h.lost_drop

end Keeps

end Writer

end SeriesFile
