import SeriesFile.Proofs.InStep
import SeriesFile.Session

/-!
# Open files and their disk

Whatever a writer does, and whatever the medium of its file does, the file stays where it is and
what its medium has accepted stays accepted (`OpenFile.keeps_past`). So a disk that holds what the
medium of a file had accepted holds it still after the medium accepted more
(`Session.read?_receive`), and of the other files nothing changes.
-/

namespace SeriesFile

variable {μ : Type} [Sink μ]

/-! ### What was accepted -/

namespace OpenFile

/-- A file is where it was, and its medium has accepted some bytes, and maybe others since. -/
def Past (file? : Option String) (bytes : Bytes) (f : OpenFile μ) : Prop :=
  f.file? = file? ∧ bytes <+: Sink.accepted f.medium

variable {file? : Option String} {bytes : Bytes} {f : OpenFile μ}

/-- Handing on what waits adds to what the medium accepted, even if it fails in between. -/
theorem Past.drain (h : Past file? bytes f) : Past file? bytes f.drain.2 := by
  obtain ⟨hfile, haccepted, -⟩ := f.drain_spec
  exact ⟨hfile.trans h.1, h.2.trans haccepted⟩

/-- A flush hands on what waits first. Being asked to pass it on takes nothing from a medium. -/
theorem Past.flush (h : Past file? bytes f) : Past file? bytes f.flush.2 := by
  have hdrain := h.drain
  unfold OpenFile.flush
  generalize f.drain = r at hdrain
  obtain ⟨cause | done, f'⟩ := r
  · exact hdrain
  · refine ⟨hdrain.1, ?_⟩
    show bytes <+: Sink.accepted (Sink.flush f'.medium).2
    rw [Sink.accepted_flush]
    exact hdrain.2

/-- A medium that is asked to keep safe what it has still has it. -/
theorem Past.sync (h : Past file? bytes f) : Past file? bytes f.sync.2 := by
  refine ⟨h.1, ?_⟩
  show bytes <+: Sink.accepted (Sink.sync f.medium).2
  rw [Sink.accepted_sync]
  exact h.2

/-- Only bytes that are too many to wait reach the medium by way of their own. -/
theorem Past.write (h : Past file? bytes f) (more : Bytes) :
    Past file? bytes (f.write more).2 := by
  -- Before anything else there may be a drain, to make room.
  have hroom : Past file? bytes
      (if capacity - f.waiting.size < more.length then f.drain else (.ok (), f)).2 := by
    split
    · exact h.drain
    · exact h
  unfold OpenFile.write
  dsimp only
  generalize (if capacity - f.waiting.size < more.length then f.drain else (.ok (), f)) = r at hroom
  obtain ⟨cause | done, f'⟩ := r
  · exact hroom
  · dsimp only
    split
    · exact hroom
    · refine ⟨hroom.1, hroom.2.trans ?_⟩
      show Sink.accepted f'.medium <+: Sink.accepted (Sink.write f'.medium more).2
      -- A write that fails has accepted nothing, and one that does not has accepted a front.
      rcases hw : Sink.write f'.medium more with ⟨cause | n, medium⟩
      · have hsame : Sink.accepted medium = Sink.accepted f'.medium := Sink.accepted_write_error hw
        exact ⟨[], (List.append_nil _).trans hsame.symm⟩
      · rw [(Sink.accepted_write_ok hw).2]
        exact List.prefix_append _ _

/-- So every call that a writer makes of its file keeps it. -/
theorem keeps_past (file? : Option String) (bytes : Bytes) :
    Sink.Keeps fun f : OpenFile μ => f.Past file? bytes where
  write more h := h.write more
  flush h := h.flush
  sync h := h.sync

end OpenFile

/-- Letting go of a file is one more try to hand on what waits. -/
theorem Session.fileOf_past {file? : Option String} {bytes : Bytes} {w : Writer (OpenFile μ)}
    (h : w.output.sink.Past file? bytes) : (fileOf w).Past file? bytes := by
  unfold fileOf
  split
  · exact h.drain
  · exact h

/-- As long as a writer is open, what waits goes on waiting. -/
theorem Session.fileOf_of_active {w : Writer (OpenFile μ)} (active : w.state = .active) :
    fileOf w = w.output.sink := by
  rw [fileOf, active]
  rfl

/-! ### New files -/

namespace Writer

variable (g : Grant μ) (registry : Registry) (options : Options) {w : Writer (OpenFile μ)}

/-- The head of a file waits in memory, so opening a writer does not fail, whatever the medium. -/
theorem start_new :
    ∃ opened, start (OpenFile.new g) registry options = .ok opened ∧ opened.state = .active ∧
      opened.output.sink.file? = g.file? ∧ opened.output.sink.medium = g.medium :=
  ⟨_, rfl, rfl, rfl, rfl⟩

variable {g registry options}

/-- The writer that was opened is on the file it was granted. -/
theorem file?_of_start (h : start (OpenFile.new g) registry options = .ok w) :
    w.output.sink.file? = g.file? := by
  obtain ⟨w', hw', -, hfile, -⟩ := start_new g registry options
  rwa [Except.ok.inj (h.symm.trans hw')]

/-- What a new writer has put into its file, the head, its medium has not seen yet. -/
theorem medium_of_start (h : start (OpenFile.new g) registry options = .ok w) :
    (Session.fileOf w).medium = g.medium := by
  obtain ⟨w', hw', hactive, -, hmedium⟩ := start_new g registry options
  rw [Except.ok.inj (h.symm.trans hw'), Session.fileOf_of_active hactive, hmedium]

end Writer

/-! ### Disks -/

namespace Disk

variable {d : Disk} {name other : String} {bytes old new : Bytes}

/-- A file that is set is read as it was set. -/
@[simp]
theorem read?_set (d : Disk) (name : String) (bytes : Bytes) :
    (d.set name bytes).read? name = some bytes := by
  simp [set, read?]

/-- Setting one file leaves the others as they are. -/
theorem read?_set_of_ne (h : name ≠ other) : (d.set name bytes).read? other = d.read? other := by
  obtain ⟨files⟩ := d
  have hne : (other == name) = false := beq_false_of_ne (Ne.symm h)
  simp only [set, read?, List.lookup_cons, hne]
  -- What is filtered out has the name of the file that is set, so the look-up passes over it
  -- anyway.
  induction files with
  | nil => rfl
  | cons file files ih =>
    by_cases hfile : file.1 = name
    · have hother : (other == file.1) = false := by rwa [hfile]
      rw [List.filter_cons_of_neg (by simpa using hfile), List.lookup_cons, hother]
      exact ih
    · rw [List.filter_cons_of_pos (by simpa using hfile), List.lookup_cons, List.lookup_cons, ih]

/-- Writing into one file leaves the others as they are. -/
theorem read?_writeAt_of_ne (h : name ≠ other) (position : Nat) :
    (d.writeAt name position bytes).read? other = d.read? other := by
  unfold writeAt
  split
  · rfl
  · exact read?_set_of_ne h

/-- What was missing of a file is written behind what was there. -/
theorem read?_writeAt_drop (h : d.read? name = some old) (hp : old <+: new) :
    (d.writeAt name old.length (new.drop old.length)).read? name = some new := by
  obtain ⟨rest, rfl⟩ := hp
  rw [List.drop_left]
  unfold writeAt
  cases rest with
  | nil => simpa using h
  | cons b rest => simp [h, overlay]

end Disk

namespace Session

variable {d : Disk} {name : String}

/-- A file that is created is empty, as is the medium it is opened on. -/
theorem read?_create {g : Grant μ} (h : g.file? = some name) :
    (create g d).read? name = some (Sink.accepted g.medium) := by
  rw [create, h, g.blank]
  exact Disk.read?_set d name []

/-- Creating one file, or none at all, leaves the others as they are. -/
theorem read?_create_of_ne {g : Grant μ} (h : g.file? ≠ some name) :
    (create g d).read? name = d.read? name := by
  unfold create
  split
  · rfl
  · rename_i other hfile
    exact Disk.read?_set_of_ne fun heq => h (hfile.trans (congrArg some heq))

variable {before after : OpenFile μ}

/-- What a medium accepts is seen in its own file alone. -/
theorem read?_receive_of_ne (h : after.file? ≠ some name) :
    (receive before after d).read? name = d.read? name := by
  unfold receive
  split
  · rfl
  · rename_i other hfile
    exact Disk.read?_writeAt_of_ne (fun heq => h (hfile.trans (congrArg some heq))) _

/-- A disk that holds what a medium had accepted holds what it has accepted after that. -/
theorem read?_receive (h : d.read? name = some (Sink.accepted before.medium))
    (ha : after.Past (some name) (Sink.accepted before.medium)) :
    (receive before after d).read? name = some (Sink.accepted after.medium) := by
  obtain ⟨hfile, hp⟩ := ha
  simp only [receive, hfile]
  exact Disk.read?_writeAt_drop h hp

end Session

end SeriesFile
