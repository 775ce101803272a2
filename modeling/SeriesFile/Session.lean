import SeriesFile.Session.OpenFile
import SeriesFile.Writer

/-!
# Sessions

A `Session` gives out numbers for schemas and writers to callers that cannot hold them. Numbers
come from one counter and are never given out twice, so every use of a number that was given back,
or never given out, is noticed.

What a session does, it does to a disk that other sessions may share: an `Action` ends with or
without a fault, and in either case with a `Workplace`, the session and the disk. The media of its
files are of any kind, and how pages are compressed is left to a `Compressor`.
-/

namespace SeriesFile

/-- What a schema number stands for. -/
inductive SchemaSlot where
  | live (key : SeriesKey) (schema : Schema)
  | released

/-- What a writer number stands for. -/
inductive WriterSlot (μ : Type) where
  | live (writer : Writer (OpenFile μ))
  | closed
  | aborted

/-- The numbers that were given out. -/
structure Session (μ : Type) where
  /-- The number that is given out next. -/
  nextId : Nat
  schemas : List (Nat × SchemaSlot)
  writers : List (Nat × WriterSlot μ)

/-- A session and the disk it works on. -/
structure Workplace (μ : Type) where
  session : Session μ
  disk : Disk

variable {μ : Type}

namespace WriterSlot

def isLive : WriterSlot μ → Bool
  | live _ => true
  | closed | aborted => false

end WriterSlot

namespace Session

/-- Ends with or without a fault, in either case with a workplace. -/
abbrev Action (μ α : Type) := EStateM Fault (Workplace μ) α

def new : Session μ := ⟨1, [], []⟩

/-- The number of writers that still accept points. -/
def liveWriters (s : Session μ) : Nat :=
  s.writers.countP fun entry => entry.2.isLive

def replace {α : Type} (id : Nat) (a : α) (slots : List (Nat × α)) : List (Nat × α) :=
  slots.map fun slot => if slot.1 = id then (id, a) else slot

def allocate : Action μ Nat := fun p =>
  .ok p.session.nextId { p with session := { p.session with nextId := p.session.nextId + 1 } }

/-! ### Schemas -/

/-- Gives out a number for a schema, whose encoding must be able to carry its type. -/
def createSchema (key : SeriesKey) (schema : Schema) : Action μ Nat := do
  match schema.check with
  | .error fault => throw fault
  | .ok schema =>
    let id ← allocate
    modify fun p => { p with
      session := { p.session with schemas := (id, .live key schema) :: p.session.schemas } }
    return id

/-- Takes the number of a schema back. Writers opened with the schema are not affected. -/
def releaseSchema (id : Nat) : Action μ Unit := do
  match (← get).session.schemas.lookup id with
  | none => throw .handleClosed
  | some .released => throw (.doubleRelease id)
  | some (.live _ _) =>
    modify fun p => { p with
      session := { p.session with schemas := replace id .released p.session.schemas } }

/-- The registry of the schemas that some numbers stand for, or the first fault among them. -/
def registryOf (s : Session μ) (ids : List Nat) : Except Fault Registry :=
  ids.foldlM (fun r id =>
    match s.schemas.lookup id with
    | some (.live key schema) => Registry.add r key schema
    | _ => .error .handleClosed) SeriesTable.empty

/-! ### Writers -/

variable [Sink μ]

/-- The disk after a file has been created, without the bytes it had before. -/
def create (g : Grant μ) (disk : Disk) : Disk :=
  match g.file? with
  | none => disk
  | some name => disk.set name []

/-- The disk after an open file has handed on what it had not before. -/
def receive (before after : OpenFile μ) (disk : Disk) : Disk :=
  match after.file? with
  | none => disk
  | some name =>
    let position := (Sink.accepted before.medium).length
    disk.writeAt name position ((Sink.accepted after.medium).drop position)

/-- Opens a writer on a file over the schemas that some numbers stand for, and gives out a number
for it. -/
def openWriter (place : Place μ) (schemas : List Nat) (options : Options) : Action μ Nat := do
  let p ← get
  match p.session.registryOf schemas with
  | .error fault => throw fault
  | .ok registry =>
    match place.grant? with
    | none => throw (.cannotCreateFile place.path)
    | some g =>
      set { p with disk := create g p.disk }
      match Writer.start (OpenFile.new g) registry options with
      -- A file that does not take its head counts as not created.
      | .error (.writeFailure _, _) => throw (.cannotCreateFile place.path)
      | .error (fault, _) => throw fault
      | .ok writer =>
        let id ← allocate
        modify fun p => { p with
          session := { p.session with writers := (id, .live writer) :: p.session.writers } }
        return id

/-- The file of a writer, as the writer leaves it: once the writer is finished nobody holds its file
any more. -/
def fileOf (w : Writer (OpenFile μ)) : OpenFile μ :=
  if w.state.isTerminal then w.output.sink.letGo else w.output.sink

/-- The workplace after a writer has become another: its file has handed on what it had not
before, and its number stands for the given slot. -/
def settle (id : Nat) (before after : Writer (OpenFile μ)) (slot : WriterSlot μ)
    (p : Workplace μ) : Workplace μ where
  session := { p.session with writers := replace id slot p.session.writers }
  disk := receive before.output.sink (fileOf after) p.disk

variable [Compressor]

/-- Writes one point. A writer that has given up in doing so is given up by the session too. -/
def writePoint (id : Nat) (key : SeriesKey) (time : Int64) (value : Value) :
    Action μ Unit :=
  fun p =>
    match p.session.writers.lookup id with
    | some (.live writer) =>
      let slot (w : Writer (OpenFile μ)) : WriterSlot μ :=
        if w.state.isTerminal then .aborted else .live w
      match writer.write key time value with
      | .ok () after => .ok () (settle id writer after (slot after) p)
      | .error fault after => .error fault (settle id writer after (slot after) p)
    | _ => .error .handleClosed p

/-- Finishes the file of a writer. -/
def closeWriter [Logarithm] (id : Nat) : Action μ Unit := fun p =>
  match p.session.writers.lookup id with
  | some (.live writer) =>
    match writer.close with
    | .ok () after => .ok () (settle id writer after .closed p)
    | .error fault after => .error fault (settle id writer after .aborted p)
  | some .closed => .error .alreadyClosed p
  | _ => .error .handleClosed p

/-- Gives a writer up; one that accepts no more points is left as it is. -/
def abortWriter (id : Nat) : Action μ Unit := fun p =>
  match p.session.writers.lookup id with
  | some (.live writer) => .ok () (settle id writer writer.abort .aborted p)
  | _ => .ok () p

/-- The disk after the session has ended, and with it every open file. -/
def finish (s : Session μ) (disk : Disk) : Disk :=
  s.writers.reverse.foldl (fun disk entry =>
    match entry.2 with
    | .live writer =>
      let file := writer.output.sink
      receive file file.letGo disk
    | _ => disk) disk

end Session

end SeriesFile
