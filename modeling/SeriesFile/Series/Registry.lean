import SeriesFile.Bytes.Varint
import SeriesFile.Series.Table

/-!
# Registries of series

A `Registry` declares how each series of a file is stored. It is a table by series, so it does not
depend on the order of the declarations. `define` accepts a series once and only with an encoding
that can carry its type; `add` leaves the second condition to its caller.
-/

namespace SeriesFile

namespace Schema

/-- The three bytes of a schema. -/
def write (s : Schema) : Bytes :=
  [s.dataType.tag, s.encoding.tag, s.compression.tag]

/-- A schema from its three bytes, supported or not. -/
def read : Reader Schema := do
  let dataType ← Reader.tag .dataType DataType.ofTag?
  let encoding ← Reader.tag .encoding Encoding.ofTag?
  let compression ← Reader.tag .compression Compression.ofTag?
  return { dataType, encoding, compression }

/-- The schema itself, if its encoding can carry its type. -/
def check (s : Schema) : Except Fault Schema :=
  if s.isSupported then .ok s else .error (.unsupportedPair s.dataType s.encoding)

end Schema

/-- How each series of a file is stored. -/
abbrev Registry := SeriesTable Schema

namespace Registry

def add (r : Registry) (key : SeriesKey) (schema : Schema) : Except Fault Registry :=
  if r.contains key then .error (.duplicateSeries key) else .ok (r.insert key schema)

/-- Declares one more series, whose encoding must be able to carry its type. -/
def define (r : Registry) (key : SeriesKey) (schema : Schema) : Except Fault Registry := do
  r.add key (← schema.check)

/-- The registry of some declarations, or the first fault among them. -/
def ofDefinitions (definitions : List (SeriesKey × Schema)) : Except Fault Registry :=
  definitions.foldlM (fun r (key, schema) => r.define key schema) SeriesTable.empty

/-- The registry of the measurements of some devices, or the first fault among them. A device may
be named more than once. -/
def ofDevices (devices : List (String × List (String × Schema))) : Except Fault Registry :=
  ofDefinitions (devices.flatMap fun (device, measurements) =>
    measurements.map fun (measurement, schema) => (⟨device, measurement⟩, schema))

def devices (r : Registry) : List String :=
  (r.keys.map SeriesKey.device).eraseDups

def writeEntry (entry : SeriesKey × Schema) : Bytes :=
  Bytes.text entry.1.device ++ Bytes.text entry.1.measurement ++ entry.2.write

/-- A registry as bytes: the number of series, then each with its schema. -/
def write (r : Registry) : Bytes :=
  Bytes.u32 (UInt32.ofNat r.size) ++ r.entries.flatMap writeEntry

/-- Adds `count` series that are declared one after another. -/
def readInto (r : Registry) : (count : Nat) → Reader Registry
  | 0 => return r
  | count + 1 => do
    let device ← Reader.text
    let measurement ← Reader.text
    let schema ← Schema.read
    match r.add ⟨device, measurement⟩ schema with
    | .ok r => readInto r count
    | .error fault => Reader.fail fault

def read : Reader Registry := do
  let count ← Reader.u32
  readInto SeriesTable.empty count.toNat

end Registry

end SeriesFile
