import SeriesFile.Proofs.InStep

/-!
# Sinks only cut

Whatever a sink does, what it takes from a writer is the front of what a sink that takes everything
is given by the same operations. As long as none of its calls fails, nothing at all can be told from
the writer or its answers (`Writer.sinkAfter_cut`).

Whether a call has failed is seen on a `Watched` sink, which does what the sink in it does and
remembers failures. Watching changes nothing (`Watched.pairing`); a watched sink and one that takes
everything keep writers in step until the first failure (`Sink.Generous.pairing`).
-/

namespace SeriesFile

variable {σ τ : Type}

/-! ### Watched sinks -/

/-- A sink of which it is remembered whether a call has failed. -/
structure Watched (σ : Type) where
  sink : σ
  failed : Bool

namespace Watched

/-- Whether an offer of bytes failed: they were refused, or none of them was taken. -/
def isRefused (bytes : Bytes) : Except IoCause Nat → Bool
  | .ok n => n == 0 && !bytes.isEmpty
  | .error _ => true

def write [Sink σ] (s : Watched σ) (bytes : Bytes) : Except IoCause Nat × Watched σ :=
  let (answer, sink) := Sink.write s.sink bytes
  (answer, ⟨sink, s.failed || isRefused bytes answer⟩)

def ask (request : σ → Except IoCause Unit × σ) (s : Watched σ) :
    Except IoCause Unit × Watched σ :=
  let (answer, sink) := request s.sink
  (answer, ⟨sink, s.failed || !answer.isOk⟩)

instance [Sink σ] : Sink (Watched σ) where
  accepted s := Sink.accepted s.sink
  write := write
  flush := ask Sink.flush
  sync := ask Sink.sync
  accepted_write_ok {s s' bytes n} h := by
    obtain ⟨hanswer, rfl⟩ := Prod.mk.inj h
    exact Sink.accepted_write_ok (Prod.ext hanswer rfl)
  accepted_write_error {s s' bytes cause} h := by
    obtain ⟨hanswer, rfl⟩ := Prod.mk.inj h
    exact Sink.accepted_write_error (Prod.ext hanswer rfl)
  accepted_flush s := Sink.accepted_flush s.sink
  accepted_sync s := Sink.accepted_sync s.sink

variable [Sink σ]

/-- A watched sink answers an offer as the sink in it does. -/
theorem write_on {s : Stream σ} {t : Watched σ} (h : t.sink = s.sink) (bytes : Bytes) :
    ∃ t', t'.sink = (s.write bytes).2.sink ∧
      (s.on t).write bytes = ((s.write bytes).1, (s.write bytes).2.on t') := by
  have hwrite : Sink.write t bytes = ((Sink.write s.sink bytes).1,
      ⟨(Sink.write s.sink bytes).2, t.failed || isRefused bytes (Sink.write s.sink bytes).1⟩) := by
    rw [← h]
    rfl
  unfold Stream.write
  rw [Stream.sink_on, hwrite]
  rcases Sink.write s.sink bytes with ⟨cause | n, sink⟩
  · exact ⟨_, rfl, rfl⟩
  · exact ⟨_, rfl, rfl⟩

/-- Bytes are written to a watched sink as they are to the sink in it. -/
theorem writeAllWithin_on (limit : Nat) {s : Stream σ} {t : Watched σ} (h : t.sink = s.sink)
    (bytes : Bytes) : Stream.InStep (fun (s : σ) (t : Watched σ) => t.sink = s) (fun _ _ => False)
      (s.writeAllWithin limit bytes) ((s.on t).writeAllWithin limit bytes) := by
  induction limit generalizing s t bytes with
  | zero => cases bytes <;> exact .same h
  | succ limit ih =>
    cases bytes with
    | nil => exact .same h
    | cons b bytes =>
      obtain ⟨t', ht, hwrite⟩ := write_on h (b :: bytes)
      rw [Stream.writeAllWithin, Stream.writeAllWithin, hwrite]
      generalize s.write (b :: bytes) = r at ht
      obtain ⟨cause | n, s'⟩ := r
      · exact .same ht
      · cases n with
        | zero => exact .same ht
        | succ n =>
          -- Some were taken, and both go on with the rest.
          exact ih ht _

/-- Watching a sink changes nothing. -/
theorem pairing : Sink.Pairing (fun (s : σ) (t : Watched σ) => t.sink = s) fun _ _ => False where
  writeAll bytes h := writeAllWithin_on _ h bytes
  flush {s t} h := by
    have hflush : (s.on t).flush = (s.flush.1, s.flush.2.on (Sink.flush t).2) := by
      rw [Stream.flush, Stream.flush, ← h]
      rfl
    rw [hflush]
    exact .same (congrArg (fun sink => (Sink.flush sink).2) h)
  sync {s t} h := by
    have hsync : (s.on t).sync = (s.sync.1, s.sync.2.on (Sink.sync t).2) := by
      rw [Stream.sync, Stream.sync, ← h]
      rfl
    rw [hsync]
    exact .same (congrArg (fun sink => (Sink.sync sink).2) h)
  release {s t} h := congrArg (fun sink => (Sink.flush sink).2) h
  release_cut h := h
  grow h _ := h

/-- After an offer it is remembered whether this one, or any before, was refused. -/
theorem failed_write (s : Stream (Watched σ)) (bytes : Bytes) :
    (s.write bytes).2.sink.failed = (s.sink.failed || isRefused bytes (s.write bytes).1) := by
  have hwrite : Sink.write s.sink bytes = ((Sink.write s.sink.sink bytes).1,
      ⟨(Sink.write s.sink.sink bytes).2,
        s.sink.failed || isRefused bytes (Sink.write s.sink.sink bytes).1⟩) := rfl
  unfold Stream.write
  rw [hwrite]
  rcases Sink.write s.sink.sink bytes with ⟨cause | n, sink⟩ <;> rfl

/-- If bytes are not written entirely, then a call has failed. -/
theorem failed_of_writeAllWithin {limit : Nat} {s s' : Stream (Watched σ)} {bytes : Bytes}
    {cause : IoCause} (hlimit : bytes.length ≤ limit)
    (h : s.writeAllWithin limit bytes = (.error cause, s')) : s'.sink.failed = true := by
  induction limit generalizing s bytes with
  | zero =>
    -- Patience is not what ends it: every offer that does not fail takes a byte.
    obtain rfl := List.eq_nil_of_length_eq_zero (Nat.le_zero.1 hlimit)
    simp [Stream.writeAllWithin] at h
  | succ limit ih =>
    cases bytes with
    | nil => simp [Stream.writeAllWithin] at h
    | cons b bytes =>
      have hfailed := failed_write s (b :: bytes)
      rw [Stream.writeAllWithin] at h
      generalize s.write (b :: bytes) = r at h hfailed
      obtain ⟨cause' | n, s''⟩ := r
      · obtain rfl := (Prod.mk.inj h).2
        exact hfailed.trans (Bool.or_true _)
      · cases n with
        | zero =>
          obtain rfl := (Prod.mk.inj h).2
          exact hfailed.trans (Bool.or_true _)
        | succ n => exact ih (by simp at hlimit ⊢; omega) h

end Watched

/-! ### Sinks that take everything -/

/-- A sink with `P` does everything that it is asked for, and goes on so. -/
structure Sink.Generous [Sink τ] (P : τ → Prop) : Prop where
  write : ∀ {t : τ} (bytes : Bytes), P t →
    (Sink.write t bytes).1 = .ok bytes.length ∧ P (Sink.write t bytes).2
  flush : ∀ {t : τ}, P t → (Sink.flush t).1 = .ok () ∧ P (Sink.flush t).2
  sync : ∀ {t : τ}, P t → (Sink.sync t).1 = .ok () ∧ P (Sink.sync t).2

namespace Sink.Generous

variable [Sink σ] [Sink τ] {P : τ → Prop} (g : Sink.Generous P)
include g

omit [Sink σ] in
/-- Everything is written to a generous sink at once. -/
theorem writeAll {s : Stream τ} (h : P s.sink) (bytes : Bytes) :
    (s.writeAll bytes).1 = .ok () ∧ P (s.writeAll bytes).2.sink := by
  cases bytes with
  | nil => exact ⟨rfl, h⟩
  | cons b bytes =>
    obtain ⟨hanswer, hp⟩ := g.write (b :: bytes) h
    have hwrite : Sink.write s.sink (b :: bytes) =
        (.ok (bytes.length + 1), (Sink.write s.sink (b :: bytes)).2) := Prod.ext hanswer rfl
    rw [Stream.writeAll, List.length_cons, Stream.writeAllWithin, Stream.write, hwrite]
    dsimp only
    rw [List.drop_length]
    cases bytes.length <;> exact ⟨rfl, hp⟩

omit [Sink σ] in
/-- The same in terms of `put`. -/
theorem put {s : Stream τ} (h : P s.sink) (bytes : Bytes) :
    ∃ s', s.put bytes = (.ok (), s') ∧ P s'.sink := by
  obtain ⟨hanswer, hp⟩ := g.writeAll h bytes
  unfold Stream.put
  generalize s.writeAll bytes = r at hanswer hp
  obtain ⟨cause | done, s'⟩ := r
  · contradiction
  · exact ⟨s', rfl, hp⟩

omit [Sink σ] in
/-- On a sink that takes everything a writer can be opened. -/
theorem start_ok {t : τ} (h : P t) (registry : Registry) (options : Options) :
    ∃ opened, Writer.start t registry options = .ok opened := by
  obtain ⟨s, hmagic, hs⟩ := g.put (s := Stream.start t) h Frame.magic
  obtain ⟨s', hversion, -⟩ := g.put hs [Frame.version]
  unfold Writer.start
  rw [hmagic]
  dsimp only
  rw [hversion]
  exact ⟨_, rfl⟩

end Sink.Generous

/-- Two sinks have taken the same bytes since each had taken others before, and the second goes on
to take everything. -/
def Sink.Abreast [Sink σ] [Sink τ] (P : τ → Prop) (before before' : Bytes) (s : Watched σ)
    (t : τ) : Prop :=
  P t ∧ ∃ bytes, Sink.accepted s = before ++ bytes ∧ Sink.accepted t = before' ++ bytes

/-- At the start nothing has failed, and neither sink has taken anything yet. -/
theorem Sink.Abreast.watched [Sink σ] [Sink τ] {P : τ → Prop} {full : τ} (h : P full) (sink : σ) :
    Sink.Abreast P (Sink.accepted sink) (Sink.accepted full) (Watched.mk sink false) full :=
  ⟨h, [], (List.append_nil _).symm, (List.append_nil _).symm⟩

/-- A sink has failed, and has taken a front of what the other has. -/
def Sink.Behind [Sink σ] [Sink τ] (before before' : Bytes) (s : Watched σ) (t : τ) : Prop :=
  s.failed = true ∧ ∃ front bytes, front <+: bytes ∧ Sink.accepted s = before ++ front ∧
    Sink.accepted t = before' ++ bytes

namespace Sink.Generous

variable [Sink σ] [Sink τ] {P : τ → Prop} (g : Sink.Generous P) {before before' : Bytes}
  {s : Stream (Watched σ)} {t : τ}
include g

/-- Bytes are written to both sinks alike, or the first is cut off with a front of them. -/
theorem writeAll_on (h : Sink.Abreast P before before' s.sink t) (bytes : Bytes) :
    Stream.InStep (Sink.Abreast P before before') (Sink.Behind before before') (s.writeAll bytes)
      ((s.on t).writeAll bytes) := by
  obtain ⟨hp, taken, hs, ht⟩ := h
  obtain ⟨hanswer', hp'⟩ := g.writeAll (s := s.on t) hp bytes
  obtain ⟨all, -, he', hall'⟩ := (s.on t).writeAll_extends bytes
  rw [hall'.1 hanswer'] at he'
  have haccepted' : Sink.accepted ((s.on t).writeAll bytes).2.sink =
      before' ++ (taken ++ bytes) := by
    rw [he'.accepted, Stream.sink_on, ht, List.append_assoc]
  obtain ⟨front, hfront, he, hall⟩ := s.writeAll_extends bytes
  have haccepted : Sink.accepted (s.writeAll bytes).2.sink = before ++ (taken ++ front) := by
    rw [he.accepted, hs, List.append_assoc]
  rcases hw : s.writeAll bytes with ⟨cause | done, s'⟩
  · have hfailed := Watched.failed_of_writeAllWithin (Nat.le_refl _) hw
    rw [hw] at haccepted
    exact .cut ⟨hfailed, _, _, (List.prefix_append_right_inj _).2 hfront, haccepted, haccepted'⟩
  · rw [hw] at he haccepted hall
    -- The first sink took all of the bytes as well.
    obtain rfl := hall.1 rfl
    have hsame : (s.on t).writeAll front = (.ok (), s'.on ((s.on t).writeAll front).2.sink) :=
      Prod.ext hanswer' (he.eq_on he')
    rw [hsame]
    exact .same ⟨hp', _, haccepted, haccepted'⟩

omit g in
/-- A request that takes no bytes is answered alike, or fails. -/
theorem request_on {request : σ → Except IoCause Unit × σ} {request' : τ → Except IoCause Unit × τ}
    (h : Sink.Abreast P before before' s.sink t)
    (hs : Sink.accepted (request s.sink.sink).2 = Sink.accepted s.sink.sink)
    (ht : Sink.accepted (request' t).2 = Sink.accepted t)
    (hp : (request' t).1 = .ok () ∧ P (request' t).2) :
    Stream.InStep (Sink.Abreast P before before') (Sink.Behind before before')
      ((s.sink.ask request).1, s.on (s.sink.ask request).2) ((request' t).1, s.on (request' t).2) := by
  obtain ⟨-, bytes, hbytes, hbytes'⟩ := h
  have haccepted : Sink.accepted (s.sink.ask request).2 = before ++ bytes := hs.trans hbytes
  have haccepted' := ht.trans hbytes'
  rw [hp.1]
  cases hanswer : (s.sink.ask request).1 with
  | ok done => exact .same ⟨hp.2, bytes, haccepted, haccepted'⟩
  | error cause =>
    -- The request failed on the first sink only, and that is remembered.
    have hfailed : (s.sink.ask request).2.failed = true := by
      change (request s.sink.sink).1 = _ at hanswer
      simp only [Watched.ask, hanswer]
      exact Bool.or_true _
    exact .cut ⟨hfailed, bytes, bytes, List.prefix_rfl, haccepted, haccepted'⟩

/-- As long as no call fails a sink keeps abreast of one that takes everything; then it is left
behind. -/
theorem pairing : Sink.Pairing (σ := Watched σ) (τ := τ) (Sink.Abreast P before before')
    (Sink.Behind before before') where
  writeAll bytes h := g.writeAll_on h bytes
  flush {s t} h := request_on h (Sink.accepted_flush _) (Sink.accepted_flush _) (g.flush h.1)
  sync {s t} h := request_on h (Sink.accepted_sync _) (Sink.accepted_sync _) (g.sync h.1)
  release {s t} h := by
    obtain ⟨hp, bytes, hs, ht⟩ := h
    exact ⟨(g.flush hp).2, bytes, by rw [Sink.accepted_flush, hs], by rw [Sink.accepted_flush, ht]⟩
  release_cut {s t} h := by
    obtain ⟨hfailed, front, bytes, hfront, hs, ht⟩ := h
    have hstill : (Sink.flush s).2.failed = true := by
      show (s.failed || _) = true
      rw [hfailed, Bool.true_or]
    exact ⟨hstill, front, bytes, hfront, by rw [Sink.accepted_flush, hs], ht⟩
  grow {s t t'} h ht' := by
    obtain ⟨hfailed, front, bytes, hfront, hs, ht⟩ := h
    obtain ⟨more, ht'⟩ := ht'
    refine ⟨hfailed, front, bytes ++ more, hfront.trans (List.prefix_append _ _), hs, ?_⟩
    rw [← ht', ht, List.append_assoc]

end Sink.Generous

/-! ### Any sink -/

namespace Writer

variable [Sink σ] [Sink τ] [Compressor] [Logarithm]

/-- Whether a call of a sink fails while a writer is opened on it and asked for some operations. -/
def sinkFails (sink : σ) (registry : Registry) (options : Options) (ops : List Operation) : Bool :=
  (sinkAfter (Watched.mk sink false) registry options ops).failed

variable {P : τ → Prop} {full : τ} {sink : σ} {registry : Registry} {options : Options}
  {ops : List Operation}

/-- Within the watched sink is the sink as it is without being watched. -/
theorem sink_sinkAfter (sink : σ) (registry : Registry) (options : Options)
    (ops : List Operation) :
    (sinkAfter (Watched.mk sink false) registry options ops).sink =
      sinkAfter sink registry options ops := by
  rcases sinkAfter_on Watched.pairing (rfl : (Watched.mk sink false).sink = sink) registry options
    ops with h | h
  · exact h
  · exact h.elim

/-- On a watched sink a writer is opened and does what it does on the sink. -/
theorem watched_run {opened : Writer (Watched σ)}
    (h : start (Watched.mk sink false) registry options = .ok opened) :
    ∃ w, start sink registry options = .ok w ∧ (w.performAll ops).1 = (opened.performAll ops).1 ∧
      opened.after ops = (w.after ops).on (opened.after ops).output.sink ∧
      (opened.after ops).output.sink.sink = (w.after ops).output.sink := by
  rcases start_on Watched.pairing (rfl : (Watched.mk sink false).sink = sink) registry options with
    ⟨w, t, hw, hsame, hv⟩ | ⟨fault, sink', t, -, -, hv⟩ | ⟨-, -, -, hcut⟩
  · obtain rfl := Except.ok.inj (h.symm.trans hv)
    rcases (Reachable.opened hw).performAll_on Watched.pairing hsame ops with
      ⟨t', hsame', hanswers, hafter⟩ | hcut
    · refine ⟨w, hw, hanswers.symm, ?_, ?_⟩
      · rw [hafter, sink_on]
      · rw [hafter, sink_on]
        exact hsame'
    · exact hcut.elim
  · rw [h] at hv
    contradiction
  · exact hcut.elim

/-- Whatever becomes of a sink, it has taken a front of what is there to be taken. -/
theorem sinkAfter_front (g : Sink.Generous P) (hfull : P full) (sink : σ) (registry : Registry)
    (options : Options) (ops : List Operation) :
    ∃ front bytes, front <+: bytes ∧
      Sink.accepted (sinkAfter sink registry options ops) = Sink.accepted sink ++ front ∧
      Sink.accepted (sinkAfter full registry options ops) = Sink.accepted full ++ bytes := by
  have haccepted : Sink.accepted (sinkAfter (Watched.mk sink false) registry options ops) =
      Sink.accepted (sinkAfter sink registry options ops) := by
    rw [← sink_sinkAfter sink registry options ops]
    rfl
  rw [← haccepted]
  rcases sinkAfter_on g.pairing (Sink.Abreast.watched hfull sink) registry options ops with
    ⟨-, bytes, hs, ht⟩ | ⟨-, front, bytes, hfront, hs, ht⟩
  · exact ⟨bytes, bytes, List.prefix_rfl, hs, ht⟩
  · exact ⟨front, bytes, hfront, hs, ht⟩

/-- Where no call fails, the watched writer is opened and stays abreast to the end. -/
theorem abreast_of_not_sinkFails (g : Sink.Generous P) (hfull : P full)
    (hfails : sinkFails sink registry options ops = false) : ∃ (opened : Writer (Watched σ)) (t : τ),
      start (Watched.mk sink false) registry options = .ok opened ∧
      start full registry options = .ok (opened.on t) ∧
      ∃ t', Sink.Abreast P (Sink.accepted sink) (Sink.accepted full)
          (opened.after ops).output.sink t' ∧
        ((opened.on t).performAll ops).1 = (opened.performAll ops).1 ∧
        (opened.on t).after ops = (opened.after ops).on t' := by
  rcases start_on g.pairing (Sink.Abreast.watched hfull sink) registry options with
    ⟨opened, t, hw, hsame, hv⟩ | ⟨fault, sink', t, -, -, hv⟩ | ⟨fault, sink', hw, hfailed, -⟩
  · refine ⟨opened, t, hw, hv, ?_⟩
    rcases (Reachable.opened hw).performAll_on g.pairing hsame ops with habreast | ⟨hfailed, -⟩
    · exact habreast
    · simp only [sinkFails, sinkAfter, hw, hfailed] at hfails
      contradiction
  · -- On the generous sink the writer is always opened.
    obtain ⟨opened, hopened⟩ := g.start_ok hfull registry options
    rw [hopened] at hv
    contradiction
  · simp only [sinkFails, sinkAfter, hw, hfailed] at hfails
    contradiction

/-- What a sink takes is the front of what one that takes everything is given. As long as no call of
it fails, the answers are the same and the writers differ only in their sinks, which have taken the
same bytes. -/
theorem sinkAfter_cut (g : Sink.Generous P) (hfull : P full) (sink : σ) (registry : Registry)
    (options : Options) (ops : List Operation) :
    (∃ front bytes, front <+: bytes ∧
      Sink.accepted (sinkAfter sink registry options ops) = Sink.accepted sink ++ front ∧
      Sink.accepted (sinkAfter full registry options ops) = Sink.accepted full ++ bytes) ∧
    (sinkFails sink registry options ops = false → ∃ opened opened',
      start sink registry options = .ok opened ∧ start full registry options = .ok opened' ∧
      (opened'.performAll ops).1 = (opened.performAll ops).1 ∧
      opened'.after ops = (opened.after ops).on (opened'.after ops).output.sink ∧
      ∃ bytes, Sink.accepted (opened.after ops).output.sink = Sink.accepted sink ++ bytes ∧
        Sink.accepted (opened'.after ops).output.sink = Sink.accepted full ++ bytes) := by
  refine ⟨sinkAfter_front g hfull sink registry options ops, fun hfails => ?_⟩
  obtain ⟨opened, t, hw, hv, t', ⟨-, bytes, hs, ht⟩, hanswers', hafter'⟩ :=
    abreast_of_not_sinkFails g hfull hfails
  -- The watched writer does what the one on the sink itself does.
  obtain ⟨w, hw', hanswers, hafter, hsink⟩ := watched_run hw
  refine ⟨w, _, hw', hv, hanswers'.trans hanswers.symm, ?_, bytes, ?_, ?_⟩
  · rw [hafter', sink_on, hafter, on_on]
  · rw [← hsink]
    exact hs
  · rw [hafter', sink_on]
    exact ht

end Writer

/-- Sinks in memory that have room and pass on what they have. -/
def MemorySink.IsUnlimited (s : MemorySink) : Prop :=
  s.capacity = none ∧ s.portion = none ∧ s.refusesFlush = false

/-- A sink in memory with room is generous. -/
theorem MemorySink.generous : Sink.Generous MemorySink.IsUnlimited where
  write {t} bytes h := by
    obtain ⟨hcapacity, hportion, hflush⟩ := h
    have hwrite : t.write bytes =
        (.ok bytes.length, { t with taken := t.taken ++ bytes.take bytes.length }) := by
      simp [MemorySink.write, isFull, accepts, cap, hcapacity, hportion]
    show (t.write bytes).1 = _ ∧ IsUnlimited (t.write bytes).2
    rw [hwrite]
    exact ⟨rfl, hcapacity, hportion, hflush⟩
  flush {t} h := by
    show (if t.refusesFlush then _ else _) = _ ∧ _
    rw [h.2.2]
    exact ⟨rfl, h⟩
  sync h := ⟨rfl, h⟩

section

attribute [local instance] sampleLogarithm

/-- A sink that takes three bytes at a time. -/
def sampleSips : MemorySink :=
  { MemorySink.unlimited with portion := some 3 }

/-- A sink that takes little at a time does not fail. -/
theorem sample_sips : Writer.sinkFails sampleSips sampleRegistry sampleOptions
    (sampleOperations ++ [.close]) = false := by
  decide +kernel

/-- A sink that takes three bytes at a time gives the same answers; from a cramped one a front can
be told. -/
theorem sinkAfter_cut_sample : ∃ opened opened' : Writer MemorySink,
    MemorySink.unlimited.IsUnlimited ∧
      (∃ front bytes, front <+: bytes ∧
        Sink.accepted (Writer.sinkAfter sampleCramped sampleRegistry sampleOptions
          (sampleOperations ++ [.close])) = Sink.accepted sampleCramped ++ front ∧
        Sink.accepted (Writer.sinkAfter MemorySink.unlimited sampleRegistry sampleOptions
          (sampleOperations ++ [.close])) = Sink.accepted MemorySink.unlimited ++ bytes) ∧
      Writer.start sampleSips sampleRegistry sampleOptions = .ok opened ∧
      Writer.start MemorySink.unlimited sampleRegistry sampleOptions = .ok opened' ∧
      (opened'.performAll (sampleOperations ++ [.close])).1 =
        (opened.performAll (sampleOperations ++ [.close])).1 := by
  have hunlimited : MemorySink.unlimited.IsUnlimited := ⟨rfl, rfl, rfl⟩
  have hcut := Writer.sinkAfter_cut MemorySink.generous hunlimited sampleCramped sampleRegistry
    sampleOptions (sampleOperations ++ [.close])
  have hsips := Writer.sinkAfter_cut MemorySink.generous hunlimited sampleSips sampleRegistry
    sampleOptions (sampleOperations ++ [.close])
  obtain ⟨opened, opened', hstart, hstart', hanswers, -⟩ := hsips.2 sample_sips
  exact ⟨opened, opened', hunlimited, hcut.1, hstart, hstart', hanswers⟩

end

end SeriesFile
