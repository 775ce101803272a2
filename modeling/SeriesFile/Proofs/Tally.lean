import SeriesFile.Stream

/-!
# Streams keep the tally of their sinks

Whatever a stream is asked for, and however its sink answers, its position is the number of bytes
that the sink has accepted since the start, and its checksum is theirs (`Stream.follows_sink`). So
it is after every call, also after one that broke off in the middle, and whenever position or
checksum were asked for in between.

Which bytes these are is told by the calls and their answers (`Stream.Call.Takes`): of bytes that
were offered once as many as the answer says, of bytes that were to be written entirely a front,
which is all of them exactly if no failure is reported.
-/

namespace SeriesFile.Stream

/-- What can be asked of a stream. -/
inductive Call where
  | write (bytes : Bytes)
  | writeAll (bytes : Bytes)
  /-- As `writeAll`, but some failures are only interruptions, after which the bytes are offered
  again. The caller loses patience after `limit` offers. -/
  | insist (passes : IoCause → Bool) (limit : Nat) (bytes : Bytes)
  | flush
  | sync
  | position
  | checksum

inductive Answer where
  | taken (result : Except IoCause Nat)
  | done (result : Except IoCause Unit)
  | position (n : Nat)
  | checksum (value : UInt32)

variable {σ : Type} [Sink σ]

/-- Offers bytes again and again until all are taken, `limit` times at most. A failure that passes
does not end it. -/
def insist (passes : IoCause → Bool) :
    (limit : Nat) → Stream σ → Bytes → Except IoCause Unit × Stream σ
  | _, s, [] => (.ok (), s)
  | 0, s, _ :: _ => (.error .sinkStalled, s)
  | limit + 1, s, b :: bytes =>
    match s.write (b :: bytes) with
    | (.ok 0, s) => (.error .sinkStalled, s)
    | (.ok (n + 1), s) => insist passes limit s (bytes.drop n)
    | (.error cause, s) =>
      if passes cause then insist passes limit s (b :: bytes) else (.error cause, s)

def perform (s : Stream σ) : Call → Answer × Stream σ
  | .write bytes => (.taken (s.write bytes).1, (s.write bytes).2)
  | .writeAll bytes => (.done (s.writeAll bytes).1, (s.writeAll bytes).2)
  | .insist passes limit bytes =>
    (.done (s.insist passes limit bytes).1, (s.insist passes limit bytes).2)
  | .flush => (.done s.flush.1, s.flush.2)
  | .sync => (.done s.sync.1, s.sync.2)
  | .position => (.position s.position, s)
  | .checksum => (.checksum s.checksum, s)

/-- The answers to calls, one after another, and the stream after them. -/
def performAll (s : Stream σ) : List Call → List Answer × Stream σ
  | [] => ([], s)
  | call :: calls =>
    let (answer, s) := s.perform call
    let (answers, s) := performAll s calls
    (answer :: answers, s)

/-! ### What a call takes -/

/-- What a stream may answer to a call, and what its sink accepts in the course of it, if it has
accepted `before` since the start. -/
inductive Call.Takes (before : Bytes) : Call → Answer → Bytes → Prop
  | wrote {bytes : Bytes} {n : Nat} (h : n ≤ bytes.length) :
      Takes before (.write bytes) (.taken (.ok n)) (bytes.take n)
  | refused {bytes : Bytes} {cause : IoCause} :
      Takes before (.write bytes) (.taken (.error cause)) []
  | wroteAll {bytes front : Bytes} {result : Except IoCause Unit} (h : front <+: bytes)
      (whole : result = .ok () ↔ front = bytes) :
      Takes before (.writeAll bytes) (.done result) front
  | insisted {passes : IoCause → Bool} {limit : Nat} {bytes front : Bytes}
      {result : Except IoCause Unit} (h : front <+: bytes)
      (whole : result = .ok () ↔ front = bytes) :
      Takes before (.insist passes limit bytes) (.done result) front
  | flushed {result : Except IoCause Unit} : Takes before .flush (.done result) []
  | synced {result : Except IoCause Unit} : Takes before .sync (.done result) []
  | positioned : Takes before .position (.position before.length) []
  | summed : Takes before .checksum (.checksum (Crc32.hash before)) []

/-- What a sink accepts in the course of several calls. -/
inductive Call.TakeAll : Bytes → List Call → List Answer → Bytes → Prop
  | nil {before : Bytes} : TakeAll before [] [] []
  | cons {before taken more : Bytes} {call : Call} {calls : List Call} {answer : Answer}
      {answers : List Answer} (first : call.Takes before answer taken)
      (others : TakeAll (before ++ taken) calls answers more) :
      TakeAll before (call :: calls) (answer :: answers) (taken ++ more)

/-- Of bytes that are offered again and again the sink takes a front, which is all of them exactly
if no failure is reported. -/
theorem insist_extends (passes : IoCause → Bool) (limit : Nat) (s : Stream σ) (bytes : Bytes) :
    ∃ front, front <+: bytes ∧ Extends s (insist passes limit s bytes).2 front ∧
      ((insist passes limit s bytes).1 = .ok () ↔ front = bytes) := by
  induction limit generalizing s bytes with
  | zero =>
    cases bytes with
    | nil => exact ⟨[], List.prefix_rfl, .refl s, by simp [insist]⟩
    | cons b bytes => exact ⟨[], List.nil_prefix, .refl s, by simp [insist]⟩
  | succ limit ih =>
    cases bytes with
    | nil => exact ⟨[], List.prefix_rfl, .refl s, by simp [insist]⟩
    | cons b bytes =>
      rw [insist]
      split
      case h_1 s' hw => exact ⟨[], List.nil_prefix, (write_ok hw).2, by simp⟩
      case h_2 n s' hw =>
        have htaken := (write_ok hw).2
        obtain ⟨front, hfront, hextends, hwhole⟩ := ih s' (bytes.drop n)
        -- Some of the bytes were taken, and what is left is offered next.
        have hsplit : (b :: bytes).take (n + 1) ++ bytes.drop n = b :: bytes :=
          List.take_append_drop (n + 1) (b :: bytes)
        refine ⟨(b :: bytes).take (n + 1) ++ front, ?_, htaken.trans hextends, ?_⟩
        · have hwhole := (List.prefix_append_right_inj ((b :: bytes).take (n + 1))).2 hfront
          rwa [hsplit] at hwhole
        · rw [hwhole, ← List.append_right_inj ((b :: bytes).take (n + 1)), hsplit]
      case h_3 cause s' hw =>
        have hnothing := write_error hw
        split
        · -- What was offered in vain is offered again.
          obtain ⟨front, hfront, hextends, hwhole⟩ := ih s' (b :: bytes)
          exact ⟨front, hfront, hnothing.trans hextends, hwhole⟩
        · exact ⟨[], List.nil_prefix, hnothing, by simp⟩

/-! ### Position and checksum -/

variable {sink : σ} {s : Stream σ} {before : Bytes}

/-- The checksum of a stream is that of what it has accepted. -/
theorem Extends.checksum (h : Extends (start sink) s before) : s.checksum = Crc32.hash before := by
  rw [Stream.checksum, h.register]
  rfl

/-- The position of a stream is the length of what it has accepted. -/
theorem Extends.position_eq (h : Extends (start sink) s before) : s.position = before.length :=
  h.position.trans (Nat.zero_add _)

/-- A stream that has gone on by some bytes since its start goes on by those that a call takes. -/
theorem Extends.perform (h : Extends (start sink) s before) (call : Call) :
    ∃ taken, call.Takes before (s.perform call).1 taken ∧
      Extends (start sink) (s.perform call).2 (before ++ taken) := by
  cases call with
  | write bytes =>
    rcases hw : s.write bytes with ⟨cause | n, s'⟩
    · refine ⟨[], ?_, h.trans ?_⟩
      · rw [Stream.perform, hw]
        exact .refused
      · rw [Stream.perform, hw]
        -- After a failure nothing was taken.
        exact write_error hw
    · obtain ⟨hn, htaken⟩ := write_ok hw
      refine ⟨bytes.take n, ?_, h.trans ?_⟩
      · rw [Stream.perform, hw]
        exact .wrote hn
      · rw [Stream.perform, hw]
        exact htaken
  | writeAll bytes =>
    obtain ⟨front, hfront, hextends, hwhole⟩ := s.writeAll_extends bytes
    exact ⟨front, .wroteAll hfront hwhole, h.trans hextends⟩
  | insist passes limit bytes =>
    obtain ⟨front, hfront, hextends, hwhole⟩ := insist_extends passes limit s bytes
    exact ⟨front, .insisted hfront hwhole, h.trans hextends⟩
  | flush => exact ⟨[], .flushed, h.trans s.flush_extends⟩
  | sync => exact ⟨[], .synced, h.trans s.sync_extends⟩
  | position =>
    refine ⟨[], ?_, h.trans (.refl s)⟩
    rw [Stream.perform, h.position_eq]
    exact .positioned
  | checksum =>
    refine ⟨[], ?_, h.trans (.refl s)⟩
    rw [Stream.perform, h.checksum]
    exact .summed

/-- The same of any number of calls, each of which begins where the one before has ended. -/
theorem Extends.performAll (h : Extends (start sink) s before) (calls : List Call) :
    ∃ taken, Call.TakeAll before calls (s.performAll calls).1 taken ∧
      Extends (start sink) (s.performAll calls).2 (before ++ taken) := by
  induction calls generalizing s before with
  | nil => exact ⟨[], .nil, h.trans (.refl s)⟩
  | cons call calls ih =>
    obtain ⟨taken, hfirst, hs⟩ := h.perform call
    obtain ⟨more, hothers, hafter⟩ := ih hs
    refine ⟨taken ++ more, .cons hfirst hothers, ?_⟩
    rw [← List.append_assoc]
    exact hafter

/-- After any calls a stream stands at the number of bytes that its sink has accepted since the
start, and has their checksum. They are those that the calls took, and whatever was answered about
position and checksum in between was so. -/
theorem follows_sink (sink : σ) (calls : List Call) :
    ∃ taken, Call.TakeAll [] calls ((start sink).performAll calls).1 taken ∧
      let s := ((start sink).performAll calls).2
      Sink.accepted s.sink = Sink.accepted sink ++ taken ∧
        s.position = taken.length ∧ s.checksum = Crc32.hash taken := by
  obtain ⟨taken, hcalls, hafter⟩ := (Extends.refl (start sink)).performAll calls
  exact ⟨taken, hcalls, hafter.accepted, hafter.position_eq, hafter.checksum⟩

end SeriesFile.Stream
