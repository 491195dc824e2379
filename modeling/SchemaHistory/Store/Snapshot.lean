import SchemaHistory.Introspection.Document
import SchemaHistory.Json.Printer

namespace SchemaHistory

/-- One version of a schema as it is kept. -/
structure Snapshot where
  key : String
  schema : Introspection.Schema
  timestamp : String
  version : Binary64
  metadata : Option (List (String × Json))

namespace Snapshot

open Validation

def toJson (s : Snapshot) : Json :=
  .object ([("key", .string s.key), ("schema", s.schema.toJson),
      ("timestamp", .string s.timestamp), ("version", .number s.version)]
    ++ Json.member? "metadata" (s.metadata.map .object))

/-- The text of a snapshot file. -/
def text (s : Snapshot) : String :=
  s.toJson.pretty

/-- Versions are counted from one. -/
def version? : Decoder Binary64
  | some (.number x) =>
    let problems := (if x.isInteger then [] else [Problem.notInteger])
      ++ (if 0 < x then [] else [Problem.notPositive])
    if problems.isEmpty then .accepted x else .refused (problems.map (⟨[], ·⟩))
  | other => mismatch "number" other

/-- Free data of the user. A member with the reserved name is not kept. -/
def metadata? : Decoder (Option (List (String × Json)))
  | none => .accepted none
  | some (.object members) => .accepted (some (members.filter fun m => m.1 != "__proto__"))
  | other => mismatch "object" other

def decode : Decoder Snapshot := objectOf fun ms =>
  Snapshot.mk
    <$> member ms "key" Validation.text
    <*> member ms "schema" Introspection.schema
    <*> member ms "timestamp" Validation.text
    <*> member ms "version" version?
    <*> member ms "metadata" metadata?

/-- Reads a snapshot file, or says what is wrong with it. -/
def parse (text : String) : Except String Snapshot :=
  match Json.parse? text with
  | none => .error "JSON syntax error"
  | some value =>
    match decode (some value) with
    | .accepted s => .ok s
    | .refused issues => .error (Json.array (issues.map Issue.toJson)).pretty

end Snapshot

end SchemaHistory
