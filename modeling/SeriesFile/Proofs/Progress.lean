import SeriesFile.Proofs.Refusals

/-!
# What a writer tells of its progress

The counts of points and of chunks never go back, whatever a writer is asked for and however that
ends. The count of bytes is the position of its stream, which is the number of bytes that the sink
took for the file. But the stream goes when the writer gives up, and nothing keeps its position:
from then on the count is zero, whatever the sink took. So it goes back when the writer gives up,
and at no other time (`Writer.counters`).

Every action moves a writer on in the same sense (`Proceeds`): counts grow, the stream is extended,
and the stage stays what it is unless the writer gives up. This is so from any writer whatever, so
nothing has to be known of how it was used before.
-/

namespace SeriesFile

variable {σ α β : Type} [Sink σ]

/-- How an output goes on: its stream accepts bytes, or is given up after it did. What was given up
stays so. -/
inductive Output.GoesOn : Output σ → Output σ → Prop
  | extended {s s' : Stream σ} {bytes : Bytes} (h : s.Extends s' bytes) :
      GoesOn (.attached s) (.attached s')
  | givenUp {s : Stream σ} {sink : σ} {bytes : Bytes}
      (h : Sink.accepted sink = Sink.accepted s.sink ++ bytes) :
      GoesOn (.attached s) (.released sink)
  | gone (sink : σ) : GoesOn (.released sink) (.released sink)

namespace Output.GoesOn

variable {output output' output'' : Output σ}

/-- Going on by nothing. -/
theorem refl (output : Output σ) : output.GoesOn output := by
  cases output with
  | attached s => exact .extended (.refl s)
  | released sink => exact .gone sink

/-- Going on twice is going on once, with the bytes of both; after giving up there is only one way
left. -/
theorem trans (h : output.GoesOn output') (h' : output'.GoesOn output'') :
    output.GoesOn output'' := by
  cases h with
  | extended he =>
    cases h' with
    | extended he' => exact .extended (he.trans he')
    | givenUp ha =>
      exact .givenUp (by rw [ha, he.accepted, List.append_assoc])
  | givenUp ha =>
    cases h' with
    | gone => exact .givenUp ha
  | gone => exact h'

end Output.GoesOn

/-- Whatever becomes of a chunk, the stream accepts a part of it, or nothing. -/
theorem Stream.extends_flush [Compressor] (b : Buffer) (measurement : String) (s : Stream σ) :
    ∃ bytes, s.Extends (b.flush measurement s).2.2 bytes := by
  unfold Buffer.flush
  -- An empty buffer hands nothing over.
  split
  · exact ⟨[], .refl s⟩
  dsimp only
  split
  · rename_i entry s' happend
    cases entry with
    | none =>
      simp only [appendChunk, appendChunk_none happend, Prod.mk.injEq, true_and] at happend
      exact ⟨[], happend ▸ .refl s⟩
    | some entry =>
      obtain ⟨c, -, he, -⟩ := appendChunk_ok happend
      exact ⟨_, he⟩
  · rename_i fault s' happend
    -- Either no chunk could be made, or the sink failed in the middle of one.
    rcases appendChunk_error happend with rfl | ⟨c, front, -, -, he⟩
    · exact ⟨[], .refl _⟩
    · exact ⟨front, he⟩

namespace Writer

variable {w w' w'' : Writer σ}

/-- Later on no fewer points and chunks are counted, and the output has gone on. -/
structure Advances (w w' : Writer σ) : Prop where
  points : w.pointsWritten ≤ w'.pointsWritten
  chunks : w.chunksFlushed ≤ w'.chunksFlushed
  output : w.output.GoesOn w'.output

/-- A writer advances in the stage it is in, unless it gives up. -/
structure Proceeds (w w' : Writer σ) : Prop extends Advances w w' where
  stage : w'.state = w.state ∧ (w'.output.stream? = none ↔ w.output.stream? = none) ∨
    w'.state = .aborted ∧ w'.output.stream? = none

theorem Advances.trans (h : w.Advances w') (h' : w'.Advances w'') : w.Advances w'' where
  points := Nat.le_trans h.points h'.points
  chunks := Nat.le_trans h.chunks h'.chunks
  output := h.output.trans h'.output

theorem Advances.refl (w : Writer σ) : w.Advances w :=
  ⟨Nat.le_refl _, Nat.le_refl _, .refl _⟩

namespace Proceeds

/-- The later stage decides: if it was kept, then the earlier one, and if it was given up on the
way, nothing brings it back. -/
theorem trans (h : w.Proceeds w') (h' : w'.Proceeds w'') : w.Proceeds w'' where
  toAdvances := h.toAdvances.trans h'.toAdvances
  stage := by
    rcases h'.stage with ⟨hstate', hstream'⟩ | hgone
    · rw [hstate', hstream']
      exact h.stage
    · exact .inr hgone

/-- What is neither counted nor written leaves a writer where it is. -/
theorem of_eq (ho : w'.output = w.output) (hs : w'.state = w.state)
    (hp : w.pointsWritten ≤ w'.pointsWritten) (hc : w.chunksFlushed ≤ w'.chunksFlushed) :
    w.Proceeds w' where
  points := hp
  chunks := hc
  output := ho ▸ .refl _
  stage := .inl ⟨hs, by rw [ho]⟩

theorem refl (w : Writer σ) : w.Proceeds w :=
  of_eq rfl rfl (Nat.le_refl _) (Nat.le_refl _)

/-- Bytes that the stream accepts are all that changes. -/
theorem extended {s s' : Stream σ} {bytes : Bytes} (ho : w.output = .attached s)
    (h : s.Extends s' bytes) : w.Proceeds { w with output := .attached s' } where
  points := Nat.le_refl _
  chunks := Nat.le_refl _
  output := ho ▸ .extended h
  stage := .inl ⟨rfl, by rw [ho]; exact ⟨nofun, nofun⟩⟩

/-- Giving up lets the stream go after a last flush, whose answer is ignored. -/
theorem release (w : Writer σ) : w.Proceeds w.release where
  points := Nat.le_refl _
  chunks := Nat.le_refl _
  output := by
    unfold Writer.release
    cases w.output with
    | attached s =>
      -- The flush hands over what waits in the sink and accepts nothing new.
      have haccepted : Sink.accepted (Sink.flush s.sink).2 = Sink.accepted s.sink ++ [] := by
        rw [Sink.accepted_flush, List.append_nil]
      exact .givenUp haccepted
    | released sink => exact .gone sink
  stage := by
    refine .inr ⟨rfl, ?_⟩
    unfold Writer.release
    cases w.output <;> rfl

/-- What is finished already is not given up again. -/
theorem abort (w : Writer σ) : w.Proceeds w.abort := by
  unfold Writer.abort
  split
  · exact refl w
  · exact release w

end Proceeds

/-! ### Actions -/

/-- The action moves every writer on, also if it fails. -/
def Progresses (action : Action σ α) : Prop :=
  ∀ w, Ends action w (fun _ w' => w.Proceeds w') w.Proceeds

namespace Progresses

variable {action : Action σ α} {next : α → Action σ β}

theorem pure (a : α) : Progresses (Pure.pure a : Action σ α) :=
  fun w => Ends.pure (Proceeds.refl w)

/-- Failing without having done anything is no step back. -/
theorem throw (fault : Fault) : Progresses (throw fault : Action σ α) :=
  fun w => Ends.error rfl (Proceeds.refl w)

/-- Nothing comes after a fault. -/
theorem throw_bind (fault : Fault) :
    Progresses (MonadExcept.throw fault >>= next : Action σ β) :=
  fun w => Ends.error rfl (Proceeds.refl w)

/-- Progress is composed without conditions in between, since every action makes it from any
writer. -/
theorem bind (h : Progresses action) (h' : ∀ a, Progresses (next a)) :
    Progresses (action >>= next) :=
  fun w => (h w).bind fun a w' hw =>
    (h' a w').mono (fun _ _ => hw.trans) fun _ => hw.trans

/-- What an action does may depend on the writer it finds. -/
theorem get {next : Writer σ → Action σ β} (h : ∀ w, Progresses (next w)) :
    Progresses (MonadState.get >>= next) :=
  fun w => Ends.get (h w w)

theorem modify {f : Writer σ → Writer σ} (h : ∀ w : Writer σ, w.Proceeds (f w)) :
    Progresses (modify f : Action σ PUnit) :=
  fun w => Ends.ok rfl (h w)

/-- Series after series: by induction on their list. -/
theorem forM {action : SeriesKey → Action σ PUnit} (h : ∀ key, Progresses (action key))
    (keys : List SeriesKey) : Progresses (keys.forM action) := by
  induction keys with
  | nil => exact pure _
  | cons key keys ih => exact (h key).bind fun _ => ih

/-- Giving up is a way of going on. -/
theorem orAbort (h : Progresses action) : Progresses (orAbort action) := by
  intro w
  cases hw : action w with
  | ok a w' =>
    have horAbort : Writer.orAbort action w = .ok a w' := by simp only [Writer.orAbort, hw]
    exact .ok horAbort ((h w).of_ok hw)
  | error fault w' =>
    have horAbort : Writer.orAbort action w = .error fault w'.abort := by
      simp only [Writer.orAbort, hw]
    exact .error horAbort (((h w).of_error hw).trans (.abort w'))

/-- The check of the stage changes nothing, whichever way it goes. -/
theorem ensureOpen : Progresses (ensureOpen : Action σ Unit) := by
  intro w
  by_cases hs : w.state = .active
  · exact .ok (ensureOpen_ok hs) (.refl w)
  · exact .error (ensureOpen_error hs) (.refl w)

theorem bufferOf (key : SeriesKey) : Progresses (bufferOf key : Action σ Buffer) := by
  intro w
  unfold Ends Writer.bufferOf
  cases w.buffers.find? key <;> exact .refl w

/-- What is asked of the stream may take bytes, and its failure leaves them taken. -/
theorem ask {request : Stream σ → Except IoCause Unit × Stream σ}
    (h : ∀ s, ∃ bytes, Stream.Extends s (request s).2 bytes) : Progresses (ask request) := by
  intro w
  unfold Ends Writer.ask
  cases ho : w.output with
  | released sink =>
    -- Without a stream the action fails and nothing changes.
    exact .refl w
  | attached s =>
    obtain ⟨bytes, he⟩ := h s
    dsimp only
    generalize request s = r at he
    obtain ⟨cause | done, s'⟩ := r
    · exact .extended ho he
    · exact .extended ho he

/-- Of bytes that are put a front is accepted; whether it is all of them only decides the answer. -/
theorem put (bytes : Bytes) : Progresses (put bytes : Action σ Unit) := by
  intro w
  unfold Ends Writer.put
  cases ho : w.output with
  | released sink => exact .refl w
  | attached s =>
    obtain ⟨front, -, he, -⟩ := s.put_extends bytes
    dsimp only
    generalize s.put bytes = r at he
    obtain ⟨fault | done, s'⟩ := r
    · exact .extended ho he
    · exact .extended ho he

/-- The tail needs the place where the footer began, which only a stream knows. -/
theorem putTail (footerLength : Nat) : Progresses (putTail footerLength : Action σ Unit) := by
  intro w
  unfold Ends Writer.putTail
  cases w.output with
  | released sink => exact .refl w
  | attached s => exact put _ w

/-- A marker is written, and only then the device is remembered. -/
theorem beginGroup (device : String) : Progresses (beginGroup device : Action σ Unit) := by
  refine get fun w => ?_
  split
  · refine (put _).bind fun _ => modify fun w => ?_
    exact .of_eq rfl rfl (Nat.le_refl _) (Nat.le_refl _)
  · exact pure _

/-- The index is not among what is counted here. -/
theorem enter (key : SeriesKey) (chunk : ChunkEntry) :
    Progresses (enter key chunk : Action σ Unit) := by
  intro w
  unfold Ends Writer.enter
  cases w.index.find? key with
  | none => exact .of_eq rfl rfl (Nat.le_refl _) (Nat.le_refl _)
  | some entry =>
    dsimp only
    cases entry.push chunk with
    | error fault => exact .refl w
    | ok entry => exact .of_eq rfl rfl (Nat.le_refl _) (Nat.le_refl _)

/-- A point that is buffered is counted, and one that is refused is not. -/
theorem buffer (key : SeriesKey) (time : Int64) (value : Value) :
    Progresses (buffer key time value : Action σ Bool) := by
  refine (bufferOf key).bind fun b => ?_
  cases b.append time value with
  | error fault => exact throw fault
  | ok appended =>
    refine bind (modify fun w => ?_) fun _ => get fun w => pure _
    exact .of_eq rfl rfl (Nat.le_succ _) (Nat.le_refl _)

/-- Field by field, each counted on its own. -/
theorem bufferFields (device : String) (time : Int64) (fields : List (String × Value)) :
    Progresses (bufferFields device time fields : Action σ (List SeriesKey)) := by
  induction fields with
  | nil => exact pure _
  | cons field fields ih => exact (buffer _ _ _).bind fun _ => ih.bind fun _ => pure _

variable [Compressor]

/-- Whatever becomes of the chunk, its bytes are in the stream or a front of them is. -/
theorem flushBuffer (key : SeriesKey) (b : Buffer) :
    Progresses (flushBuffer key b : Action σ (Option ChunkEntry)) := by
  intro w
  unfold Ends Writer.flushBuffer
  cases ho : w.output with
  | released sink => exact .refl w
  | attached s =>
    obtain ⟨bytes, he⟩ := Stream.extends_flush b key.measurement s
    dsimp only
    generalize b.flush key.measurement s = r at he
    -- The buffer goes back into its table, which nothing is counted in.
    have hback (w₁ : Writer σ) (b : Buffer) :
        w₁.Proceeds { w₁ with buffers := w₁.buffers.insert key b } :=
      .of_eq rfl rfl (Nat.le_refl _) (Nat.le_refl _)
    obtain ⟨fault | entry, b', s'⟩ := r
    · exact (Proceeds.extended ho he).trans (hback _ b')
    · exact (Proceeds.extended ho he).trans (hback _ b')

/-- A chunk is counted after it has been written and before it is entered, so a fault in between
does not take the count back. -/
theorem writeChunk (key : SeriesKey) : Progresses (writeChunk key : Action σ Unit) := by
  refine get fun w => ?_
  cases w.output.stream?.isNone with
  | true => exact throw_bind _
  | false =>
    cases w.buffers.find? key with
    | none => exact pure _
    | some b =>
      -- Only a buffer with points is written.
      cases hempty : b.isEmpty with
      | true =>
        simp only [hempty, if_true]
        exact pure _
      | false =>
        simp only [hempty, Bool.false_eq_true, if_false]
        refine (beginGroup _).bind fun _ => (flushBuffer key b).bind fun chunk => ?_
        cases chunk with
        | none => exact pure _
        | some chunk =>
          refine bind (modify fun w => ?_) fun _ => enter key chunk
          exact .of_eq rfl rfl (Nat.le_refl _) (Nat.le_succ _)

theorem flushSeries (key : SeriesKey) : Progresses (flushSeries key : Action σ Unit) :=
  (writeChunk key).orAbort

theorem flushAll : Progresses (flushAll : Action σ Unit) :=
  get fun w => forM flushSeries w.pending

/-- By induction on how often a buffer may still be written. -/
theorem flushLargest (limit : Nat) : Progresses (flushLargest limit : Action σ Unit) := by
  induction limit with
  | zero => exact pure _
  | succ limit ih =>
    refine get fun w => ?_
    split
    · exact pure _
    · split
      · exact pure _
      · exact (flushSeries _).bind fun _ => ih

theorem relievePressure : Progresses (relievePressure : Action σ Unit) := by
  refine get fun w => ?_
  split
  · exact pure _
  · split
    · exact flushAll
    · exact flushLargest _

/-- Refused, buffered, or buffered and written: points are counted in the last two. -/
theorem write (key : SeriesKey) (time : Int64) (value : Value) :
    Progresses (write key time value : Action σ Unit) := by
  refine ensureOpen.bind fun _ => (buffer key time value).bind fun full => ?_
  cases full with
  | true => exact (flushSeries key).bind fun _ => relievePressure
  | false => exact relievePressure

/-- All fields are checked before the first is buffered, so either none is counted or each as it is
buffered. -/
theorem writeRecord (device : String) (time : Int64) (fields : List (String × Value)) :
    Progresses (writeRecord device time fields : Action σ Unit) := by
  refine ensureOpen.bind fun _ => get fun w => ?_
  cases w.checkFields device time [] fields with
  | error fault => exact throw fault
  | ok =>
    exact (bufferFields device time fields).bind fun full =>
      (forM flushSeries full).bind fun _ => relievePressure

theorem flush : Progresses (flush : Action σ Unit) :=
  ensureOpen.bind fun _ => flushAll

variable [Logarithm]

/-- The end of the file: the remaining chunks, the footer, and the tail if there was room for the
footer. -/
theorem complete : Progresses (complete : Action σ Unit) := by
  refine flushAll.bind fun _ => get fun w => ?_
  refine bind (modify fun w => ?_) fun _ => ?_
  · exact .of_eq rfl rfl (Nat.le_refl _) (Nat.le_refl _)
  · split
    · exact throw_bind _
    · exact (put _).bind fun _ => putTail _

/-- Behind the tail the sink is flushed and, if it is asked for, synced. -/
theorem finish : Progresses (finish : Action σ Unit) := by
  refine complete.bind fun _ => (ask fun s => ⟨[], s.flush_extends⟩).bind fun _ => get fun w => ?_
  split
  · exact ask fun s => ⟨[], s.sync_extends⟩
  · exact pure _

end Progresses

/-! ### Operations -/

section

variable [Compressor] [Logarithm] {op : Operation}

/-- The end of an operation is that of its action. -/
theorem Ends.perform_same {E : Writer σ → Prop} (h : Ends (action op) w (fun _ => E) E) :
    E (w.perform op).2 := by
  rcases h.perform with ⟨-, he⟩ | ⟨fault, -, he⟩
  · exact he
  · exact he

/-- What does not finish a writer moves it on in its stage. -/
theorem proceeds_perform (w : Writer σ) (hclose : op ≠ .close) (hdrop : op ≠ .drop) :
    w.Proceeds (w.perform op).2 := by
  apply Ends.perform_same
  cases op with
  | write key time value => exact Progresses.write key time value w
  | writeRecord device time fields => exact Progresses.writeRecord device time fields w
  | flush => exact Progresses.flush w
  | abort => exact .ok rfl (.abort w)
  | close | drop => contradiction

/-- What closes a file is the whole rest of it, or nothing. -/
theorem close_proceeds (hs : w.state = .active) :
    Ends close w
      (fun _ w' => ∃ w₁, finish { w with state := .closing } = .ok () w₁ ∧
        w' = { w₁ with state := .closed } ∧ w.Advances w')
      (Proceeds { w with state := .closing }) := by
  have hends := Progresses.finish.orAbort { w with state := .closing }
  cases hfinish : orAbort finish { w with state := .closing } with
  | ok done w₁ =>
    have hclose : close w = .ok () { w₁ with state := .closed } := by simp only [close, hs, hfinish]
    -- The writer is marked closed last, which touches no count.
    have hw₁ := (hends.of_ok hfinish).toAdvances
    exact .ok hclose ⟨w₁, of_orAbort_ok hfinish, rfl, hw₁.points, hw₁.chunks, hw₁.output⟩
  | error fault w₁ =>
    have hclose : close w = .error fault w₁ := by simp only [close, hs, hfinish]
    exact .error hclose (hends.of_error hfinish)

/-- A close advances a writer however it ends, and one of a writer that is not open does nothing. -/
theorem advances_close (w : Writer σ) : w.Advances (w.perform .close).2 := by
  by_cases hs : w.state = .active
  · have hends : Ends (action .close) w _ _ := close_proceeds hs
    rcases hends.perform with ⟨-, w₁, -, -, hadvances⟩ | ⟨fault, -, hproceeds⟩
    · exact hadvances
    · exact ⟨hproceeds.points, hproceeds.chunks, hproceeds.output⟩
  · have hclose : ∃ fault, action .close w = .error fault w := by
      show ∃ fault, close w = .error fault w
      unfold close
      cases hstate : w.state with
      | active => contradiction
      | closing | closed | aborted => exact ⟨_, rfl⟩
    obtain ⟨fault, hclose⟩ := hclose
    rw [perform_error hclose]
    exact .refl w

/-- Every operation moves a writer on. -/
theorem advances_perform (w : Writer σ) (op : Operation) : w.Advances (w.perform op).2 := by
  by_cases hclose : op = .close
  · exact hclose ▸ w.advances_close
  by_cases hdrop : op = .drop
  · subst hdrop
    show w.Advances w.drop
    -- Letting go of a writer changes its stage only.
    unfold drop
    split
    · exact .refl w
    · exact ⟨Nat.le_refl _, Nat.le_refl _, .refl _⟩
  · exact (w.proceeds_perform hclose hdrop).toAdvances

/-- From one operation to all of them, by transitivity. -/
theorem advances_after (w : Writer σ) (ops : List Operation) : w.Advances (w.after ops) := by
  induction ops generalizing w with
  | nil => exact .refl w
  | cons op ops ih => exact (w.advances_perform op).trans (ih _)

/-- Operations in two parts are done one part after the other. -/
theorem after_append (w : Writer σ) (ops more : List Operation) :
    w.after (ops ++ more) = (w.after ops).after more := by
  induction ops generalizing w with
  | nil => rfl
  | cons op ops ih => exact ih _

/-- A history that ends with giving up leaves what giving up leaves. -/
theorem after_abort (w : Writer σ) (ops : List Operation) :
    w.after (ops ++ [.abort]) = (w.after ops).abort := by
  rw [after_append]
  rfl

/-! ### Giving up -/

/-- A writer has no stream exactly if it has given up. -/
def Staged (w : Writer σ) : Prop :=
  w.output.stream? = none ↔ w.state = .aborted

omit [Sink σ] [Compressor] [Logarithm] in
/-- A writer that has its stream and has not given up is in order. -/
theorem Staged.of_attached {stream : Stream σ} (ho : w.output = .attached stream)
    (hs : w.state ≠ .aborted) : w.Staged := by
  rw [Staged, ho]
  exact ⟨nofun, fun h => absurd h hs⟩

omit [Compressor] [Logarithm] in
/-- Progress keeps the stage and the stream in step: it changes neither, or ends both. -/
theorem Staged.proceeds (h : w.Staged) (hw : w.Proceeds w') : w'.Staged := by
  rcases hw.stage with ⟨hstate, hstream⟩ | ⟨hstate, hstream⟩
  · rw [Staged, hstate, hstream]
    exact h
  · exact ⟨fun _ => hstate, fun _ => hstream⟩

/-- Whoever has brought a file to its end still has its stream. -/
theorem finish_attached (h : finish w = .ok () w') : ∃ stream, w'.output = .attached stream := by
  obtain ⟨-, w₁, -, h⟩ := of_bind_ok h
  obtain ⟨done, w₂, hflush, h⟩ := of_bind_ok h
  obtain ⟨stream, rfl⟩ := ask_ok hflush
  change (if w₁.options.syncOnClose then ask Stream.sync else pure () : Action σ Unit) _ = _ at h
  split at h
  · obtain ⟨stream', rfl⟩ := ask_ok h
    exact ⟨stream', rfl⟩
  · cases h
    exact ⟨stream, rfl⟩

/-- Closing leaves the stream with the writer if it succeeds, and ends in giving up if it does
not. -/
theorem Reachable.staged_close (h : Reachable w) (hs : w.state = .active) (hstaged : w.Staged) :
    (w.perform .close).2.Staged := by
  have hends : Ends (action .close) w _ _ := close_proceeds hs
  have hnot : w.output.stream? ≠ none := by
    intro hnone
    rw [hstaged.1 hnone] at hs
    contradiction
  rcases hends.perform with ⟨-, w₁, hfinish, hclosed, -⟩ | ⟨fault, hanswer, hproceeds⟩
  · -- It was closed, with its stream still there.
    obtain ⟨stream, ho⟩ := finish_attached hfinish
    rw [hclosed]
    exact .of_attached ho nofun
  · have haborted : (w.perform .close).2.state = .aborted := by
      rcases h.closed_or_aborted hs with ⟨hok, -⟩ | ⟨-, -, haborted⟩
      · rw [hanswer] at hok
        contradiction
      · exact haborted
    -- The writer is not left in the stage it was closed in, so it has given up on the way.
    rcases hproceeds.stage with ⟨hstate, -⟩ | ⟨-, hstream⟩
    · rw [haborted] at hstate
      contradiction
    · exact ⟨fun _ => haborted, fun _ => hstream⟩

/-- As long as nobody lets go of a writer, it is without a stream exactly if it has given up. -/
theorem Reachable.staged_perform (h : Reachable w) (hstaged : w.Staged) (hne : op ≠ .drop) :
    (w.perform op).2.Staged := by
  by_cases hs : w.state = .active
  · by_cases hclose : op = .close
    · exact hclose ▸ h.staged_close hs hstaged
    · exact hstaged.proceeds (w.proceeds_perform hclose hne)
  · have hterminal : w.state.isTerminal = true := by
      rcases h.keeps_or_terminal with ⟨o, ledger, hkeeps⟩ | hterminal
      · exact absurd hkeeps.state_eq hs
      · exact hterminal
    rwa [perform_terminal hterminal]

/-- By induction on the operations, as long as the writer is not let go. -/
theorem Reachable.staged_after (h : Reachable w) (hstaged : w.Staged) {ops : List Operation}
    (hops : .drop ∉ ops) : (w.after ops).Staged := by
  induction ops generalizing w with
  | nil => exact hstaged
  | cons op ops ih =>
    obtain ⟨hne, hops⟩ := not_or.1 (mt List.mem_cons.2 hops)
    exact ih (h.after op) (h.staged_perform hstaged (Ne.symm hne)) hops

/-! ### Counters -/

omit [Compressor] [Logarithm] in
/-- A stream counts what its sink took, and once something is counted giving up loses the count. -/
theorem Advances.bytesWritten (h : w.Advances w')
    (hpos : w.output.stream? ≠ none → 0 < w.bytesWritten) :
    w'.bytesWritten < w.bytesWritten ↔ w.output.stream? ≠ none ∧ w'.output.stream? = none := by
  have houtput := h.output
  unfold Writer.bytesWritten at hpos ⊢
  generalize w.output = output at hpos houtput ⊢
  generalize w'.output = output' at houtput ⊢
  -- Only in the second of the three ways to go on a stream is lost, and then the count is zero.
  cases houtput with
  | extended he => simp [Output.stream?, he.position]
  | givenUp ha => simpa [Output.stream?] using hpos (Option.some_ne_none _)
  | gone => simp [Output.stream?]

/-- Opened on a sink, a writer counts the bytes of its file until it gives up. -/
theorem counts_after {sink : σ} {registry : Registry} {options : Options} {opened : Writer σ}
    (hstart : start sink registry options = .ok opened) (ops : List Operation) :
    ∃ bytes, Sink.accepted (opened.after ops).output.sink = Sink.accepted sink ++ bytes ∧
      0 < bytes.length ∧ (opened.after ops).bytesWritten =
        if (opened.after ops).output.stream? = none then 0 else bytes.length := by
  obtain ⟨runs, h⟩ := start_ok hstart
  obtain ⟨stream, ho, he⟩ := h.wrote
  have houtput := (opened.advances_after ops).output
  rw [ho] at houtput
  unfold Writer.bytesWritten
  generalize (opened.after ops).output = output at houtput
  cases houtput with
  | extended he' =>
    -- From the head of the file on, every byte was accepted by one stream.
    have hall := he.trans he'
    refine ⟨_, hall.accepted, List.length_pos_iff.2 (by simp [Frame.head]), ?_⟩
    simp only [Output.stream?, reduceCtorEq, if_false]
    exact hall.position.trans (Nat.zero_add _)
  | givenUp ha =>
    rw [he.accepted, List.append_assoc] at ha
    exact ⟨_, ha, List.length_pos_iff.2 (by simp [Frame.head]), rfl⟩

/-- What a writer tells of its progress: the points and chunks it counts are never fewer than
before, and the bytes it counts are those that the sink took for its file, until it gives up. From
then on it counts none, which is the only way in which a count goes back. -/
theorem counters {sink : σ} {registry : Registry} {options : Options} {opened : Writer σ}
    (hstart : start sink registry options = .ok opened) (ops more : List Operation) :
    (∃ bytes, Sink.accepted (opened.after ops).output.sink = Sink.accepted sink ++ bytes ∧
      (opened.after ops).bytesWritten =
        if (opened.after ops).output.stream? = none then 0 else bytes.length) ∧
    (.drop ∉ ops →
      ((opened.after ops).output.stream? = none ↔ (opened.after ops).state = .aborted)) ∧
    (opened.after ops).pointsWritten ≤ (opened.after (ops ++ more)).pointsWritten ∧
    (opened.after ops).chunksFlushed ≤ (opened.after (ops ++ more)).chunksFlushed ∧
    ((opened.after (ops ++ more)).bytesWritten < (opened.after ops).bytesWritten ↔
      (opened.after ops).output.stream? ≠ none ∧
        (opened.after (ops ++ more)).output.stream? = none) := by
  obtain ⟨bytes, haccepted, hpos, hcount⟩ := counts_after hstart ops
  have hadvances := (opened.after ops).advances_after more
  rw [← after_append] at hadvances
  refine ⟨⟨bytes, haccepted, hcount⟩, fun hops => ?_, hadvances.points, hadvances.chunks,
    hadvances.bytesWritten fun hstream => ?_⟩
  · -- The writer starts with a stream and has not given up, and operations keep that in step.
    obtain ⟨stream, ho⟩ := (start_ok hstart).attached
    have hstate : opened.state ≠ .aborted := by
      rw [(start_ok hstart).state_eq]
      exact nofun
    exact (Reachable.opened hstart).staged_after (.of_attached ho hstate) hops
  · rw [hcount, if_neg hstream]
    exact hpos

end

end Writer

section

attribute [local instance] sampleLogarithm

/-- Some points and chunks are written, and then the writer is given up: what the sink took is
still there, but none of it is counted any more. -/
theorem counters_sample : ∃ opened : Writer MemorySink,
    Writer.start MemorySink.unlimited sampleRegistry sampleOptions = .ok opened ∧
      (opened.after sampleOperations).pointsWritten ≤
        (opened.after (sampleOperations ++ [.abort])).pointsWritten ∧
      Sink.accepted (opened.after (sampleOperations ++ [.abort])).output.sink =
        Sink.accepted (opened.after sampleOperations).output.sink ∧
      (opened.after (sampleOperations ++ [.abort])).bytesWritten = 0 ∧
      (opened.after (sampleOperations ++ [.abort])).bytesWritten <
        (opened.after sampleOperations).bytesWritten := by
  obtain ⟨opened, closed, hstart, hclose⟩ := Writer.exists_of_closes sample_closes
  have hactive := Writer.active_of_close hclose
  have hops : .drop ∉ sampleOperations := by simp [sampleOperations]
  clear hclose
  generalize sampleOperations = ops at hactive hops ⊢
  have haborted : (opened.after (ops ++ [.abort])).state = .aborted := by
    rw [Writer.after_abort]
    exact Writer.state_abort (by rw [hactive]; rfl)
  obtain ⟨-, hstage, hpoints, -, hbytes⟩ := Writer.counters hstart ops [.abort]
  obtain ⟨⟨bytes, -, hcount⟩, hstage', -⟩ := Writer.counters hstart (ops ++ [.abort]) []
  have hgone := (hstage' (by simp [hops])).2 haborted
  have hthere : (opened.after ops).output.stream? ≠ none := fun hnone => by
    rw [(hstage hops).1 hnone] at hactive
    contradiction
  rw [if_pos hgone] at hcount
  exact ⟨opened, hstart, hpoints, by rw [Writer.after_abort, Writer.accepted_abort], hcount,
    hbytes.2 ⟨hthere, hgone⟩⟩

end

end SeriesFile
