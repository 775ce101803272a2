import SeriesFile.Writer

/-!
# What actions lead to

An action ends with a writer, whether it fails or not. `Ends` says what is known of that writer in
either case, and how actions are composed it composes too. The actions that hand bytes to the sink
are characterised here: of what they have to write, the sink accepts the front, and all of it
exactly if they do not fail.
-/

namespace SeriesFile

/-! ### Streams -/

namespace Stream

variable {σ : Type} [Sink σ]

/-- Whether everything was put or not, the stream goes on with a front of it; which of the two it
was shows in whether the front is all of it. -/
theorem put_extends (s : Stream σ) (bytes : Bytes) :
    ∃ front, front <+: bytes ∧ Extends s (s.put bytes).2 front ∧
      ((s.put bytes).1 = .ok () ↔ front = bytes) := by
  obtain ⟨front, hp, he, hi⟩ := s.writeAll_extends bytes
  -- Only the kind of the fault differs between putting and writing all.
  unfold put
  split
  · rename_i after hw
    rw [hw] at he hi
    exact ⟨front, hp, he, by simpa using hi⟩
  · rename_i cause after hw
    rw [hw] at he hi
    exact ⟨front, hp, he, by simpa using hi⟩

/-- What was put stands in the stream, all of it. -/
theorem put_ok {s s' : Stream σ} {bytes : Bytes} (h : s.put bytes = (.ok (), s')) :
    Extends s s' bytes := by
  obtain ⟨front, -, he, hi⟩ := s.put_extends bytes
  rw [h] at he hi
  rwa [hi.1 rfl] at he

/-- When putting fails, the stream goes on with a strict front: the sink may have accepted some of
the bytes, though never all. -/
theorem put_error {s s' : Stream σ} {bytes : Bytes} {fault : Fault}
    (h : s.put bytes = (.error fault, s')) :
    ∃ front, front <+: bytes ∧ front ≠ bytes ∧ Extends s s' front := by
  obtain ⟨front, hp, he, hi⟩ := s.put_extends bytes
  rw [h] at he hi
  refine ⟨front, hp, ?_, he⟩
  intro heq
  exact absurd (hi.2 heq) nofun

variable [Compressor] {s s' : Stream σ} {measurement : String} {schema : Schema}
  {times : List Int64} {column : Column}

/-- A chunk that was appended was made from the points and stands where the stream was. -/
theorem appendChunk_ok {e : ChunkEntry}
    (h : s.appendChunk measurement schema times column = (.ok (some e), s')) :
    ∃ c, Chunk.build measurement schema times column = .ok (some c) ∧ Extends s s' c.write ∧
      e = ⟨UInt64.ofNat s.position, c.header.statistics⟩ := by
  unfold appendChunk at h
  -- Three things may fail: the chunk, its head and its payload.
  split at h
  · simp at h
  · simp at h
  rename_i c hbuild
  split at h
  · simp at h
  rename_i middle hhead
  split at h
  · simp at h
  rename_i after hpayload
  simp only [Prod.mk.injEq, Except.ok.injEq, Option.some.injEq] at h
  obtain ⟨rfl, rfl⟩ := h
  exact ⟨c, hbuild, (put_ok hhead).trans (put_ok hpayload), rfl⟩

/-- Nothing is appended only if there is no chunk. -/
theorem appendChunk_none (h : s.appendChunk measurement schema times column = (.ok none, s')) :
    Chunk.build measurement schema times column = .ok none := by
  unfold appendChunk at h
  split at h
  · simp at h
  · assumption
  split at h
  · simp at h
  split at h
  · simp at h
  · simp at h

/-- Of a chunk that could not be appended the front may stand there. -/
theorem appendChunk_error {fault : Fault}
    (h : s.appendChunk measurement schema times column = (.error fault, s')) :
    s' = s ∨ ∃ c front, Chunk.build measurement schema times column = .ok (some c) ∧
      front <+: c.write ∧ Extends s s' front := by
  unfold appendChunk at h
  split at h
  · -- Without a chunk nothing has been put.
    exact .inl (Prod.mk.inj h).2.symm
  · simp at h
  rename_i c hbuild
  refine .inr ⟨c, ?_⟩
  split at h
  · rename_i middle hhead
    -- The head broke off, so what stands there is a front of it.
    obtain ⟨front, hp, -, he⟩ := put_error hhead
    rw [← (Prod.mk.inj h).2]
    exact ⟨front, hbuild, hp.trans (List.prefix_append _ _), he⟩
  rename_i middle hhead
  split at h
  · rename_i after hpayload
    -- The head is whole and the payload broke off.
    obtain ⟨front, hp, -, he⟩ := put_error hpayload
    rw [← (Prod.mk.inj h).2]
    exact ⟨_, hbuild, (List.prefix_append_right_inj _).2 hp, (put_ok hhead).trans he⟩
  · simp at h

end Stream

/-! ### Actions -/

namespace Writer

variable {σ α β : Type}

/-- The first of two actions succeeds, and the second meets the writer it leaves. -/
theorem bind_ok {action : Action σ α} {next : α → Action σ β} {w w' : Writer σ} {a : α}
    (h : action w = .ok a w') : (action >>= next) w = next a w' := by
  show EStateM.bind action next w = _
  rw [EStateM.bind, h]

/-- The first of two actions fails, and so do both together, with the writer it leaves: there is no
way back to the writer from before. -/
theorem bind_error {action : Action σ α} {next : α → Action σ β} {w w' : Writer σ} {fault : Fault}
    (h : action w = .error fault w') : (action >>= next) w = .error fault w' := by
  show EStateM.bind action next w = _
  rw [EStateM.bind, h]

/-- What two actions do together was done by one after the other. -/
theorem of_bind_ok {action : Action σ α} {next : α → Action σ β} {w w' : Writer σ} {b : β}
    (h : (action >>= next) w = .ok b w') : ∃ a w₁, action w = .ok a w₁ ∧ next a w₁ = .ok b w' := by
  cases hw : action w with
  | ok a w₁ =>
    rw [bind_ok hw] at h
    exact ⟨a, w₁, rfl, h⟩
  | error fault w₁ =>
    rw [bind_error hw] at h
    contradiction

/-- The action on `w` ends in `Q`, or fails and ends in `E`. -/
def Ends (action : Action σ α) (w : Writer σ) (Q : α → Writer σ → Prop) (E : Writer σ → Prop) :
    Prop :=
  match action w with
  | .ok a w' => Q a w'
  | .error _ w' => E w'

namespace Ends

variable {w : Writer σ} {Q Q' : α → Writer σ → Prop} {R : β → Writer σ → Prop}
  {E E' : Writer σ → Prop} {action : Action σ α} {next : α → Action σ β}

/-- An action that is known to succeed ends where it does. -/
theorem ok {a : α} {w' : Writer σ} (hw : action w = .ok a w') (h : Q a w') : Ends action w Q E := by
  rw [Ends, hw]
  exact h

/-- An action that is known to fail ends where it does. -/
theorem error {fault : Fault} {w' : Writer σ} (hw : action w = .error fault w') (h : E w') :
    Ends action w Q E := by
  rw [Ends, hw]
  exact h

/-- What is known of an action is known of its success. -/
theorem of_ok {a : α} {w' : Writer σ} (h : Ends action w Q E) (hw : action w = .ok a w') :
    Q a w' := by
  rw [Ends, hw] at h
  exact h

/-- What is known of an action is known of its failure too. -/
theorem of_error {fault : Fault} {w' : Writer σ} (h : Ends action w Q E)
    (hw : action w = .error fault w') : E w' := by
  rw [Ends, hw] at h
  exact h

theorem pure {a : α} (h : Q a w) : Ends (Pure.pure a) w Q E := h

/-- Looking at the writer leaves it as it is. -/
theorem get {next : Writer σ → Action σ β} (h : Ends (next w) w R E) :
    Ends (MonadState.get >>= next) w R E := h

/-- A change of the writer is seen by what comes after it. -/
theorem modify {f : Writer σ → Writer σ} {next : Action σ β} (h : Ends next (f w) R E) :
    Ends (modify f >>= fun _ => next) w R E := h

/-- Less may be said of where an action ends, in either case. -/
theorem mono (h : Ends action w Q E) (hq : ∀ a w', Q a w' → Q' a w')
    (he : ∀ w', E w' → E' w') : Ends action w Q' E' := by
  cases hw : action w with
  | ok a w' => exact .ok hw (hq a w' (h.of_ok hw))
  | error fault w' => exact .error hw (he w' (h.of_error hw))

/-- Two actions end where the second does, or where the first fails. Both have to keep `E`, since
either of them may be the one that fails. -/
theorem bind (h : Ends action w Q E) (h' : ∀ a w', Q a w' → Ends (next a) w' R E) :
    Ends (action >>= next) w R E := by
  cases hw : action w with
  | ok a w' =>
    rw [Ends, bind_ok hw]
    exact h' a w' (h.of_ok hw)
  | error fault w' => exact .error (bind_error hw) (h.of_error hw)

/-- An action that is known to succeed is passed over. -/
theorem after {a : α} {w' : Writer σ} (hw : action w = .ok a w') (h : Ends (next a) w' R E) :
    Ends (action >>= next) w R E := by
  rw [Ends, bind_ok hw]
  exact h

end Ends

end Writer

end SeriesFile
