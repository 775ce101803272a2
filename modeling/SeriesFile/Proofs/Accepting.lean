import SeriesFile.Proofs.Keeping

/-!
# Points and the ledger

A writer accepts exactly the points that the ledger accepts, and refuses the others with the same
fault, whatever was flushed before (`Holds.buffer_accepted`, `Holds.buffer_refused`).

The fields of a record are checked before the first of them is buffered, each against the points
from before the record. That comes to the same as accepting them one after another
(`checkFields_eq`), since a measurement that was seen before is refused: its second value would
have the timestamp of its first.

A call with points has two parts: the points are received, with the chunks they fill, and then
pressure is relieved (`action_eq_receive`). What is received is what the ledger accepts
(`Holds.receive_cases`).
-/

namespace SeriesFile

/-- A buffer takes no second point of its last time. -/
theorem Buffer.lastTime_ne_of_check {b : Buffer} {time : Int64} {value : Value}
    (h : b.check time value = .ok ()) : b.lastTime ≠ some time := by
  intro hlast
  unfold check at h
  split at h
  · contradiction
  · rw [hlast] at h
    simp at h

/-- Which types a buffer takes does not depend on the timestamp. -/
theorem Buffer.check_of_ok {b : Buffer} {time : Int64} {value : Value}
    (h : b.check time value = .ok ()) (other : Value) :
    b.check time other =
      if other.dataType ≠ b.schema.dataType then
        .error (.typeMismatch b.schema.dataType other.dataType)
      else .ok () := by
  unfold check at h ⊢
  by_cases htype : value.dataType ≠ b.schema.dataType
  · rw [if_pos htype] at h
    contradiction
  · rw [if_neg htype] at h
    rw [h]

namespace Ledger

variable {ledger : Ledger} {key : SeriesKey} {time : Int64} {value : Value}

/-- A series that has no account is refused. -/
theorem accept_unknown (h : ledger.find? key = none) :
    ledger.accept key time value = .error (.unknownSeries key) := by
  rw [accept, h]

/-- The ledger accepts the points that the buffer of their series accepts. -/
theorem accept_eq {schema : Schema} {b : Buffer} {flushed accepted : List Point}
    (h : ledger.find? key = some ⟨schema.dataType, accepted⟩)
    (hb : b.Keeps schema flushed accepted) :
    ledger.accept key time value = (b.check time value).map fun _ =>
      ledger.insert key ⟨schema.dataType, accepted ++ [⟨time, value⟩]⟩ := by
  rw [accept, h, hb.check_eq]
  dsimp only
  split
  · rfl
  · cases accepted.getLast? with
    | none => rfl
    | some last =>
      dsimp only
      split
      · rfl
      · rfl

end Ledger

namespace Writer

variable {σ : Type} [Sink σ] [Compressor] {o : Opening σ} {w : Writer σ} {state : WriterState}
  {runs : List Run} {ledger ledger' : Ledger} {key : SeriesKey} {time : Int64} {value : Value}
  {fault : Fault}

/-! ### One point -/

section

omit [Sink σ] [Compressor]

/-- A point for a series without a buffer is refused. -/
theorem buffer_unknown (h : w.buffers.find? key = none) :
    buffer key time value w = .error (.unknownSeries key) w := by
  have hof : bufferOf key w = .error (.unknownSeries key) w := by rw [bufferOf, h]
  exact bind_error hof

/-- A point is refused as the buffer of its series refuses it. -/
theorem buffer_error {b : Buffer} (h : w.buffers.find? key = some b)
    (ha : b.append time value = .error fault) : buffer key time value w = .error fault w := by
  have hof : bufferOf key w = .ok b w := by rw [bufferOf, h]
  rw [buffer, bind_ok hof, ha]
  rfl

/-- A point that is taken goes to its buffer, and is counted. -/
theorem buffer_ok {b b' : Buffer} {added : Nat} (h : w.buffers.find? key = some b)
    (ha : b.append time value = .ok (added, b')) :
    buffer key time value w = .ok (b'.isFull w.options) { w with
      buffers := w.buffers.insert key b'
      bufferedBytes := w.bufferedBytes + added
      pointsWritten := w.pointsWritten + 1 } := by
  have hof : bufferOf key w = .ok b w := by rw [bufferOf, h]
  rw [buffer, bind_ok hof, ha]
  rfl

/-- A buffer with one more point of its account takes the place of the one before. -/
theorem buffered_of_keeps {b b' : Buffer} {schema : Schema} {flushed accepted : List Point}
    (h : b.Keeps schema flushed accepted)
    (h' : b'.Keeps schema flushed (accepted ++ [⟨time, value⟩]))
    (hfind : w.buffers.find? key = some b) (hearlier : b.lastTime ≠ some time) :
    Buffered key ⟨time, value⟩ (b'.isFull w.options) w { w with
      buffers := w.buffers.insert key b'
      bufferedBytes := w.bufferedBytes + Buffer.cost value
      pointsWritten := w.pointsWritten + 1 } := by
  have hpoints := h.points_append h'
  refine .mk hfind hpoints ?_ ?_ hearlier ?_
  · rw [← h'.length_points, hpoints, List.length_append, h.length_points]
    rfl
  · rw [h'.counted, hpoints, Buffer.costs_append, h.counted]
    rfl
  · rw [h'.last, List.getLast?_concat]
    rfl

end

namespace Holds

/-- What the ledger refuses is refused with the same fault. -/
theorem buffer_refused (h : Holds o state runs ledger w)
    (hr : ledger.accept key time value = .error fault) :
    buffer key time value w = .error fault w := by
  have haccount := h.accounts key
  cases hfind : w.buffers.find? key with
  | none =>
    rw [hfind] at haccount
    rw [Ledger.accept_unknown haccount.account_eq_none] at hr
    obtain rfl := Except.error.inj hr
    exact buffer_unknown hfind
  | some b =>
    obtain ⟨schema, accepted, -, hledger, hkeeps⟩ := h.keeps_buffer hfind
    rw [Ledger.accept_eq hledger hkeeps] at hr
    cases hcheck : b.check time value with
    | ok =>
      rw [hcheck] at hr
      contradiction
    | error fault' =>
      rw [hcheck] at hr
      obtain rfl := Except.error.inj hr
      apply buffer_error hfind
      rw [Buffer.append, hcheck]
      rfl

/-- What the ledger accepts is buffered, and the writer holds the ledger with it. -/
theorem buffer_accepted (h : Holds o state runs ledger w)
    (ha : ledger.accept key time value = .ok ledger') :
    ∃ full w', buffer key time value w = .ok full w' ∧ Buffered key ⟨time, value⟩ full w w' ∧
      Holds o state runs ledger' w' := by
  have haccount := h.accounts key
  cases hfind : w.buffers.find? key with
  | none =>
    rw [hfind] at haccount
    rw [Ledger.accept_unknown haccount.account_eq_none] at ha
    contradiction
  | some b =>
    obtain ⟨schema, accepted, hschema, hledger, hkeeps⟩ := h.keeps_buffer hfind
    rw [Ledger.accept_eq hledger hkeeps] at ha
    cases hcheck : b.check time value with
    | error fault =>
      rw [hcheck] at ha
      contradiction
    | ok =>
      rw [hcheck] at ha
      obtain rfl := Except.ok.inj ha
      obtain ⟨b', happend, hkeeps'⟩ := hkeeps.append_ok hcheck
      have hbuffered := buffered_of_keeps hkeeps hkeeps' hfind (Buffer.lastTime_ne_of_check hcheck)
      refine ⟨_, _, buffer_ok hfind happend, hbuffered,
        { h with accounts := fun k => ?_, tallies := h.tallies.buffered hbuffered }⟩
      rw [SeriesTable.find?_insert, SeriesTable.find?_insert]
      -- Only the account of this series has changed.
      by_cases hk : key = k
      · subst hk
        rw [if_pos rfl, if_pos rfl, hschema]
        exact .known hkeeps'
      · rw [if_neg hk, if_neg hk]
        exact h.accounts k

end Holds

/-! ### Records -/

/-- A ledger from before a record, into which fields with the `seen` measurements were entered
since, while the buffers are still those from before. -/
structure Ahead (w : Writer σ) (device : String) (time : Int64) (seen : List String)
    (ledger : Ledger) : Prop where
  fresh : ∀ measurement ∉ seen, ∃ schema flushed,
    Accounted schema (w.buffers.find? ⟨device, measurement⟩) (ledger.find? ⟨device, measurement⟩)
      flushed
  entered : ∀ measurement ∈ seen, ∃ b account last,
    w.buffers.find? ⟨device, measurement⟩ = some b ∧
      ledger.find? ⟨device, measurement⟩ = some account ∧ account.dataType = b.schema.dataType ∧
      account.points.getLast? = some last ∧ last.time = time ∧
      ∃ value, b.check time value = .ok ()

/-- Before the first field nothing is ahead. -/
theorem Holds.ahead (h : Holds o state runs ledger w) (device : String) (time : Int64) :
    Ahead w device time [] ledger :=
  ⟨fun _ _ => ⟨_, _, h.accounts _⟩, fun _ hm => (List.not_mem_nil hm).elim⟩

namespace Ahead

omit [Sink σ] [Compressor]

variable {device measurement : String} {seen : List String} {fields : List (String × Value)}

/-- A measurement of which a field was entered takes no other at the same time. -/
theorem accept_entered (h : Ahead w device time seen ledger) (hm : measurement ∈ seen)
    (value : Value) :
    ∃ b, w.buffers.find? ⟨device, measurement⟩ = some b ∧
      ledger.accept ⟨device, measurement⟩ time value =
        (b.check time value).bind fun _ => .error (.outOfOrder time time) := by
  obtain ⟨b, account, last, hb, haccount, htype, hlast, rfl, other, hcheck⟩ := h.entered _ hm
  refine ⟨b, hb, ?_⟩
  simp only [Ledger.accept, haccount, Buffer.check_of_ok hcheck value, htype]
  split
  · rfl
  · -- The last point has this time already.
    simp only [hlast, Int64.le_refl, if_true]
    rfl

/-- Any other measurement takes a field as its buffer does. -/
theorem accept_fresh (h : Ahead w device time seen ledger) (hm : measurement ∉ seen) {b : Buffer}
    (hb : w.buffers.find? ⟨device, measurement⟩ = some b) (value : Value) :
    (∃ fault, b.check time value = .error fault ∧
      ledger.accept ⟨device, measurement⟩ time value = .error fault) ∨
    (b.check time value = .ok () ∧ ∃ ledger',
      ledger.accept ⟨device, measurement⟩ time value = .ok ledger' ∧
        Ahead w device time (measurement :: seen) ledger') := by
  obtain ⟨schema?, flushed, haccount⟩ := h.fresh _ hm
  rw [hb] at haccount
  obtain ⟨schema, accepted, -, hledger, hkeeps⟩ := haccount.keeps
  have haccept := @Ledger.accept_eq _ _ time value _ _ _ _ hledger hkeeps
  cases hcheck : b.check time value with
  | error fault =>
    rw [hcheck] at haccept
    exact .inl ⟨fault, rfl, haccept⟩
  | ok =>
    rw [hcheck] at haccept
    -- The field is accepted: this measurement has been seen now, and the others are as before.
    refine .inr ⟨rfl, _, haccept, ?_, ?_⟩
    · intro other ho
      obtain ⟨hne, ho⟩ := List.ne_and_not_mem_of_not_mem_cons ho
      obtain ⟨schema', flushed', hother⟩ := h.fresh other ho
      have hkey : (⟨device, measurement⟩ : SeriesKey) ≠ ⟨device, other⟩ := fun heq =>
        hne (SeriesKey.mk.inj heq).2.symm
      refine ⟨schema', flushed', ?_⟩
      rw [SeriesTable.find?_insert, if_neg hkey]
      exact hother
    · intro other ho
      by_cases heq : measurement = other
      · subst heq
        refine ⟨b, _, ⟨time, value⟩, hb, by rw [SeriesTable.find?_insert, if_pos rfl], ?_, ?_, rfl,
          value, hcheck⟩
        · rw [hkeeps.stored]
        · exact List.getLast?_concat
      · have hkey : (⟨device, measurement⟩ : SeriesKey) ≠ ⟨device, other⟩ := fun h' =>
          heq (SeriesKey.mk.inj h').2
        obtain ⟨b', account, last, hb', hentered⟩ :=
          h.entered other ((List.mem_cons.1 ho).resolve_left (Ne.symm heq))
        refine ⟨b', account, last, hb', ?_⟩
        rw [SeriesTable.find?_insert, if_neg hkey]
        exact hentered

/-- Checking fields against the buffers comes to the same as accepting them one after another. -/
theorem checkFields_eq (h : Ahead w device time seen ledger) :
    w.checkFields device time seen fields =
      (ledger.acceptRecord device time fields).map fun _ => () := by
  induction fields generalizing seen ledger with
  | nil => rfl
  | cons field fields ih =>
    obtain ⟨measurement, value⟩ := field
    rw [checkFields, Ledger.acceptRecord, List.foldlM_cons]
    -- A measurement that was seen is refused by the check as repeated, and by the ledger as out of
    -- order.
    by_cases hm : measurement ∈ seen
    · obtain ⟨b, hb, haccept⟩ := h.accept_entered hm value
      rw [hb, haccept]
      dsimp only
      cases b.check time value with
      | error fault => rfl
      | ok => exact if_pos hm
    · cases hb : w.buffers.find? ⟨device, measurement⟩ with
      | none =>
        obtain ⟨schema, flushed, haccount⟩ := h.fresh _ hm
        rw [hb] at haccount
        rw [Ledger.accept_unknown haccount.account_eq_none]
        rfl
      | some b =>
        rcases h.accept_fresh hm hb value with
          ⟨fault, hcheck, haccept⟩ | ⟨hcheck, ledger', haccept, hahead⟩
        · simp only [hcheck, haccept]
          rfl
        · simp only [hcheck, haccept, if_neg hm]
          exact ih hahead

end Ahead

/-- Fields that are accepted one after another are buffered. -/
theorem Holds.bufferFields_ok (h : Holds o state runs ledger w) {device : String}
    {fields : List (String × Value)}
    (ha : ledger.acceptRecord device time fields = .ok ledger') :
    ∃ full w', bufferFields device time fields w = .ok full w' ∧ AllBuffered time full w w' ∧
      Holds o state runs ledger' w' := by
  induction fields generalizing w ledger with
  | nil =>
    obtain rfl := Except.ok.inj ha
    exact ⟨_, _, rfl, .nil w, h⟩
  | cons field fields ih =>
    obtain ⟨measurement, value⟩ := field
    rw [Ledger.acceptRecord, List.foldlM_cons] at ha
    obtain ⟨ledger₁, haccept, ha⟩ := bind_eq_ok.1 ha
    obtain ⟨full, w₁, hbuffer, hfirst, h₁⟩ := h.buffer_accepted haccept
    obtain ⟨others, w₂, hfields, hrest, h₂⟩ := ih h₁ ha
    refine ⟨_, w₂, ?_, .cons hfirst hrest, h₂⟩
    rw [bufferFields, bind_ok hbuffer, bind_ok hfields]
    rfl

/-! ### Writing -/

omit [Sink σ] [Compressor] in
/-- An open writer may go on. -/
theorem ensureOpen_ok (h : w.state = .active) : ensureOpen w = .ok () w :=
  if_pos h

omit [Sink σ] [Compressor] in
/-- No other writer may. -/
theorem ensureOpen_error (h : w.state ≠ .active) : ensureOpen w = .error .handleClosed w :=
  if_neg h

/-- What a call with points does before it sees to the bound: it puts the points into their buffers
and writes those that are full then. -/
def receive : Operation → Action σ Unit
  | .write key time value => do
    ensureOpen
    if ← buffer key time value then flushSeries key
  | .writeRecord device time fields => do
    ensureOpen
    match (← get).checkFields device time [] fields with
    | .error fault => throw fault
    | .ok () =>
      let full ← bufferFields device time fields
      full.forM flushSeries
  | .flush | .close | .abort | .drop => return ()

/-- A write is receiving its point and then relieving pressure. -/
theorem write_eq_receive (key : SeriesKey) (time : Int64) (value : Value) :
    (write key time value : Action σ Unit) =
      receive (.write key time value) >>= fun _ => relievePressure := by
  simp only [write, receive, bind_assoc]
  congr 1
  funext done
  congr 1
  funext full
  cases full <;> simp

/-- So is a record. -/
theorem writeRecord_eq_receive (device : String) (time : Int64) (fields : List (String × Value)) :
    (writeRecord device time fields : Action σ Unit) =
      receive (.writeRecord device time fields) >>= fun _ => relievePressure := by
  simp only [writeRecord, receive, bind_assoc]
  congr 1
  funext done
  congr 1
  funext w
  cases w.checkFields device time [] fields with
  | error fault => rfl
  | ok done => simp only [bind_assoc]

/-- So is every operation that offers points. -/
theorem action_eq_receive [Logarithm] {op : Operation} (h : op.offers = true) :
    (action op : Action σ Unit) = receive op >>= fun _ => relievePressure := by
  cases op with
  | write key time value => exact write_eq_receive key time value
  | writeRecord device time fields => exact writeRecord_eq_receive device time fields
  | flush | close | abort | drop => contradiction

/-- Points of one time were put into the buffers of their series, and those that were full then were
drained. -/
def Received (o : Opening σ) (runs : List Run) (ledger : Ledger) (time : Int64) (w w' : Writer σ) :
    Prop :=
  ∃ full w₁, AllBuffered time full w w₁ ∧ Drained o .active runs ledger w₁ w' ∧
    (∀ key ∈ full, ¬w'.Filled key) ∧ ∀ key ∉ full, w'.buffers.find? key = w₁.buffers.find? key

/-- Points of one time were put into the buffers of their series. Those that were full then were
drained, and further ones until the bound was met. -/
def Stored (o : Opening σ) (runs : List Run) (ledger : Ledger) (time : Int64) (w w' : Writer σ) :
    Prop :=
  ∃ full w₁, AllBuffered time full w w₁ ∧ Drained o .active runs ledger w₁ w' ∧
    (∀ key ∈ full, ¬w'.Filled key) ∧ w'.bufferedBytes ≤ o.options.maxBufferedBytes

namespace Holds

/-- A point that the ledger refuses is not received. -/
theorem receive_write_refused (h : Holds o .active runs ledger w)
    (hr : ledger.accept key time value = .error fault) :
    receive (.write key time value) w = .error fault w := by
  rw [receive, bind_ok (ensureOpen_ok h.state_eq)]
  exact bind_error (h.buffer_refused hr)

/-- A record that the ledger refuses is not received. -/
theorem receive_writeRecord_refused (h : Holds o .active runs ledger w) {device : String}
    {fields : List (String × Value)}
    (hr : ledger.acceptRecord device time fields = .error fault) :
    receive (.writeRecord device time fields) w = .error fault w := by
  have hcheck : w.checkFields device time [] fields = .error fault := by
    rw [(h.ahead device time).checkFields_eq, hr]
    rfl
  have hget : (get : Action σ (Writer σ)) w = .ok w w := rfl
  rw [receive, bind_ok (ensureOpen_ok h.state_eq), bind_ok hget, hcheck]
  rfl

/-- Unless the writer is given up, a point that the ledger accepts is received. -/
theorem receive_write_ends (h : Holds o .active runs ledger w)
    (ha : ledger.accept key time value = .ok ledger') :
    Ends (receive (.write key time value)) w
      (fun _ w' => Received o runs ledger' time w w') (Lost o) := by
  obtain ⟨full, w₁, hbuffer, hbuffered, h₁⟩ := h.buffer_accepted ha
  have hall : AllBuffered time (if full then [key] else []) w w₁ := .cons hbuffered (.nil w₁)
  refine Ends.after (ensureOpen_ok h.state_eq) (Ends.after hbuffer ?_)
  cases full with
  | true =>
    -- A buffer that is full with the point is flushed at once.
    have hends := h₁.forM_flushSeries_ends [key]
    cases hflush : flushSeries key w₁ with
    | ok done w₂ =>
      have hforM : [key].forM flushSeries w₁ = .ok () w₂ := bind_ok hflush
      obtain ⟨hdrained, hempty⟩ := hends.of_ok hforM
      exact .ok hflush ⟨[key], w₁, hall, hdrained, hempty, fun k hk =>
        h₁.find?_forM_flushSeries hforM hk⟩
    | error fault w₂ => exact .error hflush ((h₁.flushSeries_ends key).of_error hflush)
  | false =>
    exact Ends.pure ⟨[], w₁, hall, .refl h₁, fun _ hmem => (List.not_mem_nil hmem).elim,
      fun _ _ => rfl⟩

/-- Unless the writer is given up, a record that the ledger accepts is received. -/
theorem receive_writeRecord_ends (h : Holds o .active runs ledger w) {device : String}
    {fields : List (String × Value)}
    (ha : ledger.acceptRecord device time fields = .ok ledger') :
    Ends (receive (.writeRecord device time fields)) w
      (fun _ w' => Received o runs ledger' time w w') (Lost o) := by
  have hcheck : w.checkFields device time [] fields = .ok () := by
    rw [(h.ahead device time).checkFields_eq, ha]
    rfl
  obtain ⟨full, w₁, hfields, hall, h₁⟩ := h.bufferFields_ok ha
  refine Ends.after (ensureOpen_ok h.state_eq) (Ends.get ?_)
  rw [hcheck]
  apply Ends.after hfields
  have hends := h₁.forM_flushSeries_ends full
  cases hforM : full.forM flushSeries w₁ with
  | ok done w₂ =>
    obtain ⟨hdrained, hempty⟩ := hends.of_ok hforM
    exact .ok hforM ⟨full, w₁, hall, hdrained, hempty, fun k hk =>
      h₁.find?_forM_flushSeries hforM hk⟩
  | error fault w₂ => exact .error hforM (hends.of_error hforM)

/-- Points that are offered are refused as the ledger refuses them, or else they are received unless
the writer is given up. -/
theorem receive_cases (h : Holds o .active runs ledger w) {op : Operation} (hop : op.offers = true) :
    (∃ fault, ledger.perform op = (.error fault, ledger) ∧ receive op w = .error fault w) ∨
      ∃ ledger' time, ledger.perform op = (.ok (), ledger') ∧
        Ends (receive op) w (fun _ w' => Received o runs ledger' time w w') (Lost o) := by
  cases op with
  | write key time value =>
    cases hl : ledger.accept key time value with
    | error fault =>
      exact .inl ⟨fault, by rw [Ledger.perform, hl, Ledger.settle], h.receive_write_refused hl⟩
    | ok ledger' =>
      exact .inr ⟨ledger', time, by rw [Ledger.perform, hl, Ledger.settle], h.receive_write_ends hl⟩
  | writeRecord device time fields =>
    cases hl : ledger.acceptRecord device time fields with
    | error fault =>
      exact .inl ⟨fault, by rw [Ledger.perform, hl, Ledger.settle],
        h.receive_writeRecord_refused hl⟩
    | ok ledger' =>
      exact .inr ⟨ledger', time, by rw [Ledger.perform, hl, Ledger.settle],
        h.receive_writeRecord_ends hl⟩
  | flush | close | abort | drop => contradiction

/-- After points were received, further buffers are drained until the bound is met. -/
theorem relievePressure_after {action : Action σ Unit}
    (h : Ends action w (fun _ w' => Received o runs ledger time w w') (Lost o)) :
    Ends (action >>= fun _ => relievePressure) w
      (fun _ w' => Stored o runs ledger time w w') (Lost o) := by
  apply h.bind
  -- What relieving drains comes after what was full.
  rintro - w₁ ⟨full, w₀, hall, ⟨new, hdrains, h₁⟩, hempty, -⟩
  exact h₁.relievePressure_ends.mono (fun _ w₂ ⟨h₂, hbound⟩ => ⟨full, w₀, hall, .after hdrains h₂,
    fun key hmem hfilled => hempty key hmem (h₂.filled hfilled), hbound⟩) fun _ h₂ => h₂

/-- Unless the writer is given up, a point that the ledger accepts is stored. -/
theorem write_ends (h : Holds o .active runs ledger w)
    (ha : ledger.accept key time value = .ok ledger') :
    Ends (write key time value) w (fun _ w' => Stored o runs ledger' time w w') (Lost o) := by
  rw [write_eq_receive]
  exact relievePressure_after (h.receive_write_ends ha)

/-- Unless the writer is given up, a record that the ledger accepts is stored. -/
theorem writeRecord_ends (h : Holds o .active runs ledger w) {device : String}
    {fields : List (String × Value)}
    (ha : ledger.acceptRecord device time fields = .ok ledger') :
    Ends (writeRecord device time fields) w (fun _ w' => Stored o runs ledger' time w w')
      (Lost o) := by
  rw [writeRecord_eq_receive]
  exact relievePressure_after (h.receive_writeRecord_ends ha)

/-- Flushing leaves nothing in the buffers. -/
theorem flush_ends (h : Holds o .active runs ledger w) :
    Ends flush w
      (fun _ w' => Drained o .active runs ledger w w' ∧ ∀ key, ¬w'.Filled key) (Lost o) :=
  Ends.after (ensureOpen_ok h.state_eq) h.flushAll_ends

end Holds

namespace Keeps

/-- A point that the ledger refuses is refused with the same fault, and nothing else happens. -/
theorem write_refused (h : Keeps o .active ledger w)
    (hr : ledger.accept key time value = .error fault) :
    write key time value w = .error fault w := by
  obtain ⟨runs, h⟩ := h
  rw [write_eq_receive]
  exact bind_error (h.receive_write_refused hr)

/-- Unless the writer is given up, a point that the ledger accepts is held. -/
theorem write_ends (h : Keeps o .active ledger w)
    (ha : ledger.accept key time value = .ok ledger') :
    Ends (write key time value) w (fun _ w' => Keeps o .active ledger' w') (Lost o) := by
  obtain ⟨runs, h⟩ := h
  exact (h.write_ends ha).mono (fun _ _ ⟨_, _, _, h', _⟩ => h'.keeps) fun _ h' => h'

/-- A record that the ledger refuses is refused with the same fault, and nothing else happens. -/
theorem writeRecord_refused (h : Keeps o .active ledger w) {device : String}
    {fields : List (String × Value)}
    (hr : ledger.acceptRecord device time fields = .error fault) :
    writeRecord device time fields w = .error fault w := by
  obtain ⟨runs, h⟩ := h
  rw [writeRecord_eq_receive]
  exact bind_error (h.receive_writeRecord_refused hr)

/-- Unless the writer is given up, a record that the ledger accepts is held. -/
theorem writeRecord_ends (h : Keeps o .active ledger w) {device : String}
    {fields : List (String × Value)}
    (ha : ledger.acceptRecord device time fields = .ok ledger') :
    Ends (writeRecord device time fields) w (fun _ w' => Keeps o .active ledger' w') (Lost o) := by
  obtain ⟨runs, h⟩ := h
  exact (h.writeRecord_ends ha).mono (fun _ _ ⟨_, _, _, h', _⟩ => h'.keeps) fun _ h' => h'

/-- Flushing changes nothing that is held. -/
theorem flush_ends (h : Keeps o .active ledger w) :
    Ends flush w (fun _ w' => Keeps o .active ledger w') (Lost o) := by
  obtain ⟨runs, h⟩ := h
  exact h.flush_ends.mono (fun _ _ h' => h'.1.keeps) fun _ h' => h'

end Keeps

end Writer

end SeriesFile
