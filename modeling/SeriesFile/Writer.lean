import SeriesFile.Writer.Buffer

/-!
# Writers

A `Writer` turns points of many series into a file. A point goes to the buffer of its series; a
buffer that reaches a limit is written as a chunk, and when too much is buffered over all series,
buffers are written to get below the bound. Closing writes what is left, the footer and the tail.

A writer is open until it is closed or given up. A point that is refused changes nothing. Any other
failure gives the writer up: its buffers are dropped and the file is left without a tail.

An operation is an `Action`: it ends with or without a fault, and in either case with the writer
as it is afterwards.
-/

namespace SeriesFile

/-- The stages of a writer. -/
inductive WriterState where
  /-- Points are accepted. -/
  | active
  /-- The file is being finished. -/
  | closing
  /-- The file is complete. -/
  | closed
  /-- The file was given up. -/
  | aborted
  deriving DecidableEq, Repr

/-- Whether a stage is never left. -/
def WriterState.isTerminal : WriterState → Bool
  | closed | aborted => true
  | active | closing => false

/-- Where the bytes of a writer go. -/
inductive Output (σ : Type) where
  /-- A stream that the writer keeps count of. -/
  | attached (stream : Stream σ)
  /-- A sink that the writer has given up. -/
  | released (sink : σ)

namespace Output

variable {σ : Type}

def sink : Output σ → σ
  | attached stream => stream.sink
  | released sink => sink

def stream? : Output σ → Option (Stream σ)
  | attached stream => some stream
  | released _ => none

end Output

/-- The writer of one file. -/
structure Writer (σ : Type) where
  output : Output σ
  registry : Registry
  options : Options
  /-- A buffer for every series of the registry. -/
  buffers : SeriesTable Buffer
  /-- The chunks written so far. -/
  index : SeriesTable SeriesEntry
  /-- The device whose group was begun last. -/
  device : Option String
  /-- The bytes that all buffered points take up. -/
  bufferedBytes : Nat
  pointsWritten : Nat
  chunksFlushed : Nat
  state : WriterState

namespace Writer

variable {σ : Type}

/-- Ends with or without a fault, in either case with a writer. -/
abbrev Action (σ α : Type) := EStateM Fault (Writer σ) α

/-- The number of bytes of the file so far, of which a writer that has given up keeps no count. -/
def bytesWritten (w : Writer σ) : Nat :=
  match w.output with
  | .attached stream => stream.position
  | .released _ => 0

/-- The sink of a finished file; a file that was given up has none to return. -/
def sink? (w : Writer σ) : Option σ :=
  w.output.stream?.map Stream.sink

variable [Sink σ]

/-! ### Opening and giving up -/

/-- A writer on a sink, on which the head of the file has been written. -/
def start (sink : σ) (registry : Registry) (options : Options) : Except (Fault × σ) (Writer σ) :=
  match (Stream.start sink).put Frame.magic with
  | (.error fault, stream) => .error (fault, stream.sink)
  | (.ok (), stream) =>
    match stream.put [Frame.version] with
    | (.error fault, stream) => .error (fault, stream.sink)
    | (.ok (), stream) =>
      .ok {
        output := .attached stream
        registry
        options
        buffers := registry.map Buffer.new
        index := SeriesTable.empty
        device := none
        bufferedBytes := 0
        pointsWritten := 0
        chunksFlushed := 0
        state := .active }

/-- The writer after it has given up: its sink is asked once more to pass on what it has, whether
it does or not. -/
def release (w : Writer σ) : Writer σ :=
  { w with
    output :=
      match w.output with
      | .attached stream => .released (Sink.flush stream.sink).2
      | .released sink => .released sink
    buffers := SeriesTable.empty
    index := SeriesTable.empty
    bufferedBytes := 0
    state := .aborted }

/-- Lets go of the writer, whose sink is not asked for anything more. -/
def drop (w : Writer σ) : Writer σ :=
  if w.state.isTerminal then w else { w with state := .aborted }

/-- Gives up, unless the writer is finished. -/
def abort (w : Writer σ) : Writer σ :=
  if w.state.isTerminal then w else w.release

def ensureOpen : Action σ Unit := fun w =>
  if w.state = .active then .ok () w else .error .handleClosed w

/-- Does something that gives the writer up if it fails. -/
def orAbort {α : Type} (action : Action σ α) : Action σ α := fun w =>
  match action w with
  | .ok a w => .ok a w
  | .error fault w => .error fault w.abort

def bufferOf (key : SeriesKey) : Action σ Buffer := fun w =>
  match w.buffers.find? key with
  | some b => .ok b w
  | none => .error (.unknownSeries key) w

/-! ### Writing chunks -/

variable [Compressor]

def put (bytes : Bytes) : Action σ Unit := fun w =>
  match w.output with
  | .released _ => .error .handleClosed w
  | .attached stream =>
    match stream.put bytes with
    | (.ok (), stream) => .ok () { w with output := .attached stream }
    | (.error fault, stream) => .error fault { w with output := .attached stream }

/-- Begins the group of a device, unless it is the one begun last. -/
def beginGroup (device : String) : Action σ Unit := do
  if (← get).device ≠ some device then
    -- The marker stands even if the chunk behind it turns out not to be storable.
    put (Frame.group device)
    modify fun w => { w with device := some device }

def enter (key : SeriesKey) (chunk : ChunkEntry) : Action σ Unit := fun w =>
  match w.index.find? key with
  | none => .ok () { w with index := w.index.insert key (.single key chunk) }
  | some entry =>
    match entry.push chunk with
    | .ok entry => .ok () { w with index := w.index.insert key entry }
    | .error fault => .error fault w

/-- Writes the points of a buffer as a chunk. -/
def flushBuffer (key : SeriesKey) (b : Buffer) : Action σ (Option ChunkEntry) := fun w =>
  match w.output with
  | .released _ => .error .handleClosed w
  | .attached stream =>
    match b.flush key.measurement stream with
    | (answer, b, stream) =>
      let w := { w with output := .attached stream, buffers := w.buffers.insert key b }
      match answer with
      | .ok entry => .ok entry w
      | .error fault => .error fault w

/-- Writes the buffered points of a series as a chunk, in the group of its device. -/
def writeChunk (key : SeriesKey) : Action σ Unit := do
  let w ← get
  if w.output.stream?.isNone then throw .handleClosed
  match w.buffers.find? key with
  | none => return ()
  | some b =>
    if b.isEmpty then return ()
    beginGroup key.device
    match ← flushBuffer key b with
    | none => return ()
    | some chunk =>
      modify fun w => { w with
        bufferedBytes := w.bufferedBytes - b.rawBytes
        chunksFlushed := w.chunksFlushed + 1 }
      enter key chunk

/-- Writes the buffered points of a series as a chunk. A failure gives the writer up. -/
def flushSeries (key : SeriesKey) : Action σ Unit :=
  orAbort (writeChunk key)

/-- The series that have buffered points, in order. -/
def pending (w : Writer σ) : List SeriesKey :=
  (w.buffers.entries.filter fun entry => !entry.2.isEmpty).map Prod.fst

/-- Writes all buffered points, series after series. -/
def flushAll : Action σ Unit := do
  (← get).pending.forM flushSeries

/-- The series whose buffered points take up the most bytes; of several the first. -/
def largest? (w : Writer σ) : Option SeriesKey :=
  (w.buffers.entries.foldl (fun best entry =>
    match best with
    | some (_, size) => if size < entry.2.rawBytes then some (entry.1, entry.2.rawBytes) else best
    | none => if 0 < entry.2.rawBytes then some (entry.1, entry.2.rawBytes) else none)
    none).map Prod.fst

/-- Writes the largest buffers, `limit` at most, until the bound is met. -/
def flushLargest : (limit : Nat) → Action σ Unit
  | 0 => return ()
  | limit + 1 => do
    let w ← get
    if w.bufferedBytes ≤ w.options.maxBufferedBytes then return ()
    match w.largest? with
    | none => return ()
    | some key =>
      flushSeries key
      flushLargest limit

/-- Writes buffers as the policy says if too much is buffered. -/
def relievePressure : Action σ Unit := do
  let w ← get
  if w.bufferedBytes ≤ w.options.maxBufferedBytes then return ()
  match w.options.pressurePolicy with
  | .flushAll => flushAll
  | .flushLargest => flushLargest w.pending.length

/-! ### Points -/

/-- Puts a point into the buffer of its series and tells whether the buffer is then full. -/
def buffer (key : SeriesKey) (time : Int64) (value : Value) : Action σ Bool := do
  let b ← bufferOf key
  match b.append time value with
  | .error fault => throw fault
  | .ok (added, b) =>
    modify fun w => { w with
      buffers := w.buffers.insert key b
      bufferedBytes := w.bufferedBytes + added
      pointsWritten := w.pointsWritten + 1 }
    return b.isFull (← get).options

def write (key : SeriesKey) (time : Int64) (value : Value) : Action σ Unit := do
  ensureOpen
  -- The point counts as written before its chunk is, and also if that fails.
  if ← buffer key time value then flushSeries key
  relievePressure

/-- Whether the fields of a record would be accepted, or the first reason why not. A measurement
must not occur among the `seen` ones: its second value would have the timestamp of the first. -/
def checkFields (w : Writer σ) (device : String) (time : Int64) :
    (seen : List String) → List (String × Value) → Except Fault Unit
  | _, [] => .ok ()
  | seen, (measurement, value) :: fields =>
    match w.buffers.find? ⟨device, measurement⟩ with
    | none => .error (.unknownSeries ⟨device, measurement⟩)
    | some b =>
      match b.check time value with
      | .error fault => .error fault
      | .ok () =>
        if measurement ∈ seen then .error (.outOfOrder time time)
        else checkFields w device time (measurement :: seen) fields

/-- Puts the fields of a record into their buffers and tells which are then full. -/
def bufferFields (device : String) (time : Int64) :
    List (String × Value) → Action σ (List SeriesKey)
  | [] => return []
  | (measurement, value) :: fields => do
    let full ← buffer ⟨device, measurement⟩ time value
    let others ← bufferFields device time fields
    return if full then ⟨device, measurement⟩ :: others else others

/-- Writes values of several measurements of a device at one time, all of them or none. -/
def writeRecord (device : String) (time : Int64) (fields : List (String × Value)) :
    Action σ Unit := do
  ensureOpen
  match (← get).checkFields device time [] fields with
  | .error fault => throw fault
  | .ok () =>
    -- From here on no field is refused, so the record is taken as a whole.
    let full ← bufferFields device time fields
    full.forM flushSeries
    relievePressure

/-- Writes all buffered points without finishing the file. -/
def flush : Action σ Unit := do
  ensureOpen
  flushAll

/-! ### Closing -/

variable [Logarithm]

def footer (w : Writer σ) : Footer :=
  Footer.build w.registry w.index.values w.options.bloomRateBits

/-- Writes the tail for a footer of some length. -/
def putTail (footerLength : Nat) : Action σ Unit := fun w =>
  match w.output with
  | .released _ => .error .handleClosed w
  | .attached stream =>
    put (Frame.Tail.write ⟨stream.checksum, UInt32.ofNat footerLength⟩) w

/-- Asks the sink for something that takes no bytes. -/
def ask (request : Stream σ → Except IoCause Unit × Stream σ) : Action σ Unit := fun w =>
  match w.output with
  | .released _ => .error .handleClosed w
  | .attached stream =>
    match request stream with
    | (.ok (), stream) => .ok () { w with output := .attached stream }
    | (.error cause, stream) => .error (.writeFailure cause) { w with output := .attached stream }

/-- Writes what is left, the footer and the tail. -/
def complete : Action σ Unit := do
  flushAll
  let body := (← get).footer.write
  modify fun w => { w with index := SeriesTable.empty }
  if 2 ^ 32 ≤ body.length then throw (.writeFailure (.footerTooLarge body.length))
  put body
  -- The checksum in the tail covers the footer too.
  putTail body.length

/-- Writes the rest of the file and sees that it gets where it belongs. -/
def finish : Action σ Unit := do
  complete
  ask Stream.flush
  if (← get).options.syncOnClose then ask Stream.sync

/-- Finishes the file. A failure gives the writer up. -/
def close : Action σ Unit := fun w =>
  match w.state with
  | .closed => .error .alreadyClosed w
  | .closing | .aborted => .error .handleClosed w
  | .active =>
    match orAbort finish { w with state := .closing } with
    | .ok () w => .ok () { w with state := .closed }
    | .error fault w => .error fault w

end Writer

end SeriesFile
