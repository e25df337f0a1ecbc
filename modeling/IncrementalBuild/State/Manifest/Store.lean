import IncrementalBuild.Json.Reader
import IncrementalBuild.State.Manifest

/-!
The text a manifest is kept as: indented JSON with one field per part. Reading it back asks for
every field once and for the right kind of value in each, and passes over fields it does not know;
the fields of a part may also be given as a list in their order.

On the disk, a missing file is a manifest without records; one that cannot be understood is an
error. Writing goes through a temporary file beside the manifest, which takes its place only once it
is complete.
-/

namespace IncrementalBuild.State

open Json (Value)

/-- A word as a JSON value. -/
def wordValue (w : UInt64) : Value :=
  .natural w.toNat

/-- A stamp as a JSON value. -/
def Stamp.toValue (s : Stamp) : Value :=
  .object [("metadata", wordValue s.metadata), ("content_hash", .string s.contentHash)]

/-- A secondary input as a JSON value. -/
def DependencyRecord.toValue (r : DependencyRecord) : Value :=
  .object [("path", .string r.path.text), ("stamp", r.stamp.toValue)]

/-- A record as a JSON value. -/
def Record.toValue (r : Record) : Value :=
  .object [("fingerprint", wordValue r.fingerprint), ("input_hash", wordValue r.inputHash),
    ("source", r.source.toValue),
    ("dependencies", .array (r.dependencies.map DependencyRecord.toValue))]

/-- A manifest as a JSON value. -/
def Manifest.toValue (m : Manifest) : Value :=
  .object [("version", .natural m.version),
    ("records", .object (m.records.entries.map fun (p, r) => (p.text, r.toValue)))]

/-- The text of a manifest. -/
def Manifest.toText (m : Manifest) : String :=
  m.toValue.text

/-- The values of the fields `names` of a part, in this order. Each must be there once; a list gives
them by their places. -/
def fields? (names : List String) : Value → Option (List Value)
  | .array items => if items.length = names.length then some items else none
  | .object fields => names.mapM fun name =>
    match fields.filter fun f => f.1 == name with
    | [f] => some f.2
    | _ => none
  | _ => none

/-- A natural number below a bound. -/
def below? (bound : Nat) : Value → Option Nat
  | .natural n => if n < bound then some n else none
  | _ => none

/-- A word of sixty-four bits. -/
def word? (v : Value) : Option UInt64 :=
  (below? (UInt64.size) v).map UInt64.ofNat

/-- A string. -/
def string? : Value → Option String
  | .string s => some s
  | _ => none

/-- A list. -/
def items? : Value → Option (List Value)
  | .array items => some items
  | _ => none

/-- The stamp a JSON value stands for. -/
def Stamp.ofValue? (v : Value) : Option Stamp := do
  match ← fields? ["metadata", "content_hash"] v with
  | [metadata, contentHash] => return ⟨← word? metadata, ← string? contentHash⟩
  | _ => none

/-- The secondary input a JSON value stands for. -/
def DependencyRecord.ofValue? (v : Value) : Option DependencyRecord := do
  match ← fields? ["path", "stamp"] v with
  | [path, stamp] => return ⟨⟨← string? path⟩, ← Stamp.ofValue? stamp⟩
  | _ => none

/-- The record a JSON value stands for. -/
def Record.ofValue? (v : Value) : Option Record := do
  match ← fields? ["fingerprint", "input_hash", "source", "dependencies"] v with
  | [fingerprint, inputHash, source, dependencies] =>
    return ⟨← word? fingerprint, ← word? inputHash, ← Stamp.ofValue? source,
      ← (← items? dependencies).mapM DependencyRecord.ofValue?⟩
  | _ => none

/-- The records the fields of an object stand for; of two for one output, the later counts. -/
def records? : List (String × Value) → SortedMap Path Record → Option (SortedMap Path Record)
  | [], records => some records
  | (output, v) :: rest, records => do
    records? rest (records.insert Path.order ⟨output⟩ (← Record.ofValue? v))

/-- The manifest a JSON value stands for. -/
def Manifest.ofValue? (v : Value) : Option Manifest := do
  match ← fields? ["version", "records"] v with
  | [version, .object fields] => return ⟨← below? (UInt32.size) version, ← records? fields .empty⟩
  | _ => none

/-- The manifest a text stands for. -/
def Manifest.ofText? (s : String) : Option Manifest :=
  (Value.ofText? s).bind Manifest.ofValue?

end IncrementalBuild.State

namespace IncrementalBuild.State.Manifest

/-- The manifest kept in a file. -/
def read (d : Disk) (p : Path) : Except Failure Manifest :=
  match d.readText p with
  | .error .notFound => .ok empty
  | .error fault => .error (.readManifest p fault)
  | .ok text =>
    match ofText? text with
    | none => .error (.corruptManifest p "the text is no manifest")
    | some m =>
      if m.version = currentVersion then .ok m
      else .error (.manifestVersion p m.version currentVersion)

/-- The file a manifest is written to before it takes the place of the old one. -/
def temporary (p : Path) : Path :=
  ⟨p.text ++ ".tmp"⟩

/-- Keeps a manifest in a file. The disk may change also where this fails. -/
def write (m : Manifest) (p : Path) (d : Disk) : Except Failure Unit × Disk :=
  let (made, d) : Except Failure Unit × Disk := match p.parent? with
    | none => (.ok (), d)
    | some directory =>
      let (made, d) := d.createDirectories directory
      (made.mapError (.createDirectory directory), d)
  match made with
  | .error e => (.error e, d)
  | .ok () =>
    match d.write (temporary p) m.toText.toUTF8 with
    | .error fault => (.error (.temporaryManifest fault), d)
    | .ok d =>
      match d.rename (temporary p) p with
      | .error fault => (.error (.replaceManifest fault), d)
      | .ok d => (.ok (), d)

end IncrementalBuild.State.Manifest
