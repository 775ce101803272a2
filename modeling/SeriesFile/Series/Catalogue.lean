import SeriesFile.Series.Registry

/-!
# Registries device by device

A `Catalogue` holds a registry in two levels: the devices in their order, and for each device its
measurements in theirs. The number of all series is kept beside them, so that it need not be
counted. To whoever asks, a catalogue is the registry with the same series.
-/

namespace SeriesFile

/-- Changes what stands under a name in an ascending list, or places something new there. -/
def alter {α : Type} (name : String) (f : Option α → α) : List (String × α) → List (String × α)
  | [] => [(name, f none)]
  | (other, a) :: rest =>
    match compare name other with
    | .lt => (name, f none) :: (other, a) :: rest
    | .eq => (name, f (some a)) :: rest
    | .gt => (other, a) :: alter name f rest

/-- How each series of a file is stored, by devices. -/
structure Catalogue where
  devices : List (String × List (String × Schema))
  /-- The number of all series. -/
  count : Nat
  deriving DecidableEq

namespace Catalogue

def empty : Catalogue := ⟨[], 0⟩

def find? (c : Catalogue) (key : SeriesKey) : Option Schema :=
  (c.devices.lookup key.device).bind fun measurements => measurements.lookup key.measurement

/-- All series in order, with their schemas. -/
def entries (c : Catalogue) : List (SeriesKey × Schema) :=
  c.devices.flatMap fun (device, measurements) =>
    measurements.map fun (measurement, schema) => (⟨device, measurement⟩, schema)

/-- Places a schema under the measurement of a series. -/
def place (key : SeriesKey) (schema : Schema) (devices : List (String × List (String × Schema))) :
    List (String × List (String × Schema)) :=
  alter key.device (fun measurements => alter key.measurement (fun _ => schema)
    (measurements.getD [])) devices

def add (c : Catalogue) (key : SeriesKey) (schema : Schema) : Except Fault Catalogue :=
  if (c.find? key).isSome then .error (.duplicateSeries key)
  else .ok ⟨place key schema c.devices, c.count + 1⟩

/-- Declares one more series, whose encoding must be able to carry its type. -/
def define (c : Catalogue) (key : SeriesKey) (schema : Schema) : Except Fault Catalogue := do
  c.add key (← schema.check)

/-- A catalogue as bytes: the number that is kept, then each series with its schema. -/
def write (c : Catalogue) : Bytes :=
  Bytes.u32 (UInt32.ofNat c.count) ++ c.entries.flatMap Registry.writeEntry

/-- Adds `count` series that are declared one after another. -/
def readInto (c : Catalogue) : (count : Nat) → Reader Catalogue
  | 0 => return c
  | count + 1 => do
    let device ← Reader.text
    let measurement ← Reader.text
    let schema ← Schema.read
    match c.add ⟨device, measurement⟩ schema with
    | .ok c => readInto c count
    | .error fault => Reader.fail fault

def read : Reader Catalogue := do
  let count ← Reader.u32
  readInto empty count.toNat

end Catalogue

/-- A catalogue in the making, with the first fault if there was one. -/
structure CatalogueBuilder where
  catalogue : Catalogue
  fault? : Option Fault

namespace CatalogueBuilder

def new : CatalogueBuilder := ⟨.empty, none⟩

/-- Declares measurements of a device up to the first fault. -/
def declare (b : CatalogueBuilder) (device : String) :
    List (String × Schema) → CatalogueBuilder
  | [] => b
  | (measurement, schema) :: rest =>
    match b.catalogue.define ⟨device, measurement⟩ schema with
    | .ok c => declare { b with catalogue := c } device rest
    | .error fault => { b with fault? := some fault }

/-- Goes on with a device, if there was no fault. -/
def device (b : CatalogueBuilder) (device : String) (measurements : List (String × Schema)) :
    CatalogueBuilder :=
  if b.fault?.isSome then b else b.declare device measurements

def build (b : CatalogueBuilder) : Except Fault Catalogue :=
  match b.fault? with
  | some fault => .error fault
  | none => .ok b.catalogue

end CatalogueBuilder

namespace Catalogue

/-- The builder after some devices, one of which may be named more than once. -/
def builder (devices : List (String × List (String × Schema))) : CatalogueBuilder :=
  devices.foldl (fun b (device, measurements) => b.device device measurements) .new

/-- The catalogue of the measurements of some devices, or the first fault among them. -/
def ofDevices (devices : List (String × List (String × Schema))) : Except Fault Catalogue :=
  (builder devices).build

end Catalogue

end SeriesFile
