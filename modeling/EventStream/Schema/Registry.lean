import Mathlib.Logic.Function.Basic
import EventStream.Machine

/-! The schema registry (`schema.rs`).

Each subject has versions; a version is numbered on registration, and a JSON schema is checked
against the latest version of its subject. The registry keeps all versions and, for each subject,
the number of the latest; every registration writes all versions to `schemas.json`, in the order
in which the map happens to be iterated. The latest versions are not in the file: opening takes
the last version of a subject that it finds there.

The JSON parser is a parameter, and the file is the value that was written to it. -/
namespace EventStream.Schema

/-- A JSON value. A number is its text. -/
inductive Json where
  | null
  | bool (b : Bool)
  | num (text : String)
  | str (s : String)
  | arr (items : List Json)
  | obj (fields : List (String × Json))

/-- A field of an object. -/
def Json.get (key : String) : Json → Option Json
  | .obj fields => fields.lookup key
  | _ => none

def Json.asObject : Json → Option (List (String × Json))
  | .obj fields => some fields
  | _ => none

def Json.asArray : Json → Option (List Json)
  | .arr items => some items
  | _ => none

def Json.asStr : Json → Option String
  | .str s => some s
  | _ => none

/-! ### Compatibility -/

/-- The names under `required`; what is not a string is left out. -/
def requiredFields (schema : Json) : List String :=
  ((schema.get "required").bind Json.asArray |>.map fun items => items.filterMap Json.asStr).getD []

/-- The new schema requires nothing that the old one did not, and keeps its properties. -/
def checkCompatible (old new : Json) : Except String Unit :=
  match (requiredFields new).find? (· ∉ requiredFields old) with
  | some f => .error s!"backward-incompatible: new schema adds required field '{f}'"
  | none =>
    match (old.get "properties").bind Json.asObject, (new.get "properties").bind Json.asObject with
    | some oldProps, some newProps =>
      match (oldProps.map Prod.fst).find? fun name => (newProps.lookup name).isNone with
      | some name => .error s!"backward-incompatible: new schema removes property '{name}'"
      | none => .ok ()
    | _, _ => .ok ()

section
variable (fromStr : String → Except String Json)

/-- The check on two schemas as they were registered. -/
def checkCompatibility (oldSchema newSchema : String) : Except String Unit := do
  let old ← (fromStr oldSchema).mapError fun e => s!"old schema parse: {e}"
  let new ← (fromStr newSchema).mapError fun e => s!"new schema parse: {e}"
  checkCompatible old new

end

/-! ### The registry -/

/-- How many versions the registry holds at most. -/
def maxSchemas : Nat := 100000

/-- The kinds of schemas; only JSON schemas are checked against each other. -/
inductive SchemaType where
  | jsonSchema
  | avro
  | protobuf
  deriving DecidableEq, Repr

def SchemaType.parse : String → Option SchemaType
  | "json_schema" => some .jsonSchema
  | "avro" => some .avro
  | "protobuf" => some .protobuf
  | _ => none

/-- A version of a subject. -/
structure SchemaEntry where
  id : Nat
  subject : String
  schemaType : SchemaType
  schema : String
  createdAtMs : Int64
  deriving DecidableEq, Repr

/-- The contents of `schemas.json`. -/
structure PersistedSchemas where
  nextId : Nat
  schemas : List SchemaEntry
  deriving DecidableEq, Repr

/-- `schemas` is the map from ids to versions, in no particular order. -/
structure SchemaStore where
  schemas : List SchemaEntry
  subjects : String → Option Nat
  nextId : Nat

/-- A subject's latest version becomes the one with this id. -/
def setSubject (subjects : String → Option Nat) (subject : String) (id : Option Nat) :
    String → Option Nat := Function.update subjects subject id

/-- `schemas.insert`, which replaces a version of the same id. -/
def insertEntry (schemas : List SchemaEntry) (e : SchemaEntry) : List SchemaEntry :=
  e :: schemas.filter (·.id ≠ e.id)

namespace SchemaStore

/-- Open the registry over its file, if there is one. -/
def «open» (file : Option PersistedSchemas) : SchemaStore :=
  let persisted := file.getD ⟨1, []⟩
  { schemas := persisted.schemas.foldl insertEntry []
    subjects := persisted.schemas.foldl (fun m e => setSubject m e.subject (some e.id))
      fun _ => none
    nextId := persisted.nextId }

def get (s : SchemaStore) (id : Nat) : Option SchemaEntry := s.schemas.find? (·.id = id)

/-- The version that a new one of the subject is checked against. -/
def latestVersion (s : SchemaStore) (subject : String) : Option SchemaEntry :=
  (s.subjects subject).bind s.get

/-- What the name of a subject is made of. -/
def subjectChar (c : Char) : Bool := c.isAlphanum || c == '_' || c == '-' || c == '.'

/-- What `register` checks; the result is the type of the schema. -/
def check (fromStr : String → Except String Json) (s : SchemaStore)
    (subject schemaType schema : String) : Except String SchemaType := do
  if subject.utf8ByteSize = 0 ∨ 200 < subject.utf8ByteSize then
    throw "subject must be 1..=200 chars"
  if ¬ subject.toList.all subjectChar then
    throw "subject may only contain ASCII alphanumerics, '_', '-', '.'"
  match SchemaType.parse schemaType with
  | none => throw "schema_type must be 'json_schema', 'avro', or 'protobuf'"
  | some kind =>
    if schema.utf8ByteSize = 0 ∨ 512 * 1024 < schema.utf8ByteSize then
      throw "schema must be 1..=512 KiB"
    if maxSchemas ≤ s.schemas.length then
      throw s!"schema registry limit reached ({maxSchemas})"
    let _ ← (fromStr schema).mapError fun e => s!"schema is not valid JSON: {e}"
    if kind = .jsonSchema then
      match s.subjects subject with
      | none => pure ()
      | some prevId =>
        match s.get prevId with
        | none => throw "previous schema not found"
        | some prev => checkCompatibility fromStr prev.schema schema
    pure kind

/-- The version that `register` makes, and the registry with it. The counter wraps. -/
def add (s : SchemaStore) (subject : String) (kind : SchemaType) (schema : String) (now : Int64) :
    SchemaEntry × SchemaStore :=
  let entry : SchemaEntry := ⟨s.nextId, subject, kind, schema, now⟩
  (entry,
    { schemas := insertEntry s.schemas entry
      subjects := setSubject s.subjects subject (some entry.id)
      nextId := (s.nextId + 1) % 2 ^ 32 })

/-- What `register` takes back when the file could not be written. -/
def remove (s : SchemaStore) (entry : SchemaEntry) (previous : Option Nat) : SchemaStore :=
  { s with
    schemas := s.schemas.filter (·.id ≠ entry.id)
    subjects := setSubject s.subjects entry.subject previous }

end SchemaStore

/-! ### Runs -/

/-- How writing the file ends. `write_atomic` may fail before or after the rename. -/
inductive Flushed where
  | ok
  | failed
  | failedLate
  deriving DecidableEq, Repr

/-- The registry, its file and the versions whose registration returned, in order. -/
structure World where
  store : SchemaStore
  file : Option PersistedSchemas
  registered : List SchemaEntry

/-- What is done to the registry. -/
inductive Event where
  /-- A call of `register`; `order` is the order of the map at the flush. -/
  | register (subject schemaType schema : String) (now : Int64) (order : List SchemaEntry)
    (flushed : Flushed)
  /-- The process ends and the registry is opened again. -/
  | reopen
  deriving DecidableEq, Repr

namespace World

/-- A registry without a file. -/
def empty : World := ⟨.open none, none, []⟩

/-- A refused registration changes nothing; one whose flush fails is taken back. -/
def step (fromStr : String → Except String Json) (w : World) : Event → Option World
  | .register subject schemaType schema now order flushed =>
    match w.store.check fromStr subject schemaType schema with
    | .error _ => some w
    | .ok kind =>
      let (entry, store) := w.store.add subject kind schema now
      if order.isPerm store.schemas then
        let written : PersistedSchemas := ⟨store.nextId, order⟩
        let back := store.remove entry (w.store.subjects subject)
        match flushed with
        | .ok => some ⟨store, some written, w.registered ++ [entry]⟩
        | .failed => some { w with store := back }
        | .failedLate => some { w with store := back, file := some written }
      else none
  | .reopen => some { w with store := .open w.file }

end World

end EventStream.Schema
