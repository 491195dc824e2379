import SchemaHistory.Model.Build
import SchemaHistory.Model.Reachable
import SchemaHistory.Report.Basic
import SchemaHistory.Sdl.Printer
import SchemaHistory.Store.Basic

namespace SchemaHistory

/-- How schemas are compared and kept. -/
structure Registry where
  /-- Whether a check keeps the first version of a key. -/
  autoSnapshot : Bool
  /-- Whether a check keeps a new version when it finds changes. -/
  autoUpdate : Bool
  /-- The least severity that reports list. -/
  least : Severity
  policy : Policy
  /-- Scalars that are leaves beside the built-in ones. -/
  customScalars : List String
  /-- Free data to keep with each version. -/
  metadata : List (String × Json)
  /-- The time of day. -/
  now : String

/-- A document that passed its checks, with its model. -/
structure ReadDocument where
  schema : Introspection.Schema
  model : Model

def ReadDocument.ofJson (document : Json) : Except Failure ReadDocument := do
  let schema ← Introspection.parse document
  return ⟨schema, ← Model.ofSchema schema⟩

namespace Registry

/-- A registry with the settings that hold when nothing else is said. -/
def standard (now : String) : Registry :=
  ⟨true, false, .minor, .baseName, Scalar.customDefault, [], now⟩

def report (r : Registry) (key : String) (previousVersion currentVersion : Binary64)
    (changes : List Change) : Report Nat :=
  .ofChanges key r.now previousVersion currentVersion r.least changes

/-- Keeps a schema as a version of a key. -/
def keep (r : Registry) (key : String) (schema : Introspection.Schema) (version : Binary64) :
    Action Snapshot := do
  let snapshot : Snapshot := ⟨key, schema, r.now, version, some r.metadata⟩
  Store.save snapshot
  Action.log .debug "Snapshot saved" [("key", .string key), ("version", .number version)]
  return snapshot

/-- Compares a document with the latest version of a key. -/
def check (r : Registry) (key : String) (document : Json) : Action (Report Nat) := do
  let current ← Action.lift (ReadDocument.ofJson document)
  match ← Store.load key with
  | none =>
    if r.autoSnapshot then
      let _ ← r.keep key current.schema 1
    return r.report key 1 1 []
  | some existing =>
    let previous ← Action.lift (Model.ofSchema existing.schema)
    let changes := previous.changes r.policy current.model
    let version := if changes.isEmpty then existing.version else existing.version + 1
    let report := r.report key existing.version version changes
    if r.autoUpdate && !changes.isEmpty then
      let _ ← r.keep key current.schema version
    Action.log .debug "Checked schema" [("key", .string key),
      ("changes", .natural changes.length), ("breaking", .natural report.counts.breaking)]
    return report

/-- Keeps a document as a new version. A document without changes is not kept again, unless its
version is given. -/
def snapshot (r : Registry) (key : String) (document : Json) (version : Option Binary64) :
    Action Snapshot := do
  let current ← Action.lift (ReadDocument.ofJson document)
  match ← Store.load key, version with
  | _, some version => r.keep key current.schema version
  | none, none => r.keep key current.schema 1
  | some existing, none =>
    let previous ← Action.lift (Model.ofSchema existing.schema)
    if (previous.changes r.policy current.model).isEmpty then
      Action.log .debug "Schema unchanged, keeping latest snapshot"
        [("key", .string key), ("version", .number existing.version)]
      return existing
    else r.keep key current.schema (existing.version + 1)

def found (key : String) (version : Binary64) : Option Snapshot → Except Failure Snapshot
  | some snapshot => .ok snapshot
  | none => .error (.snapshotNotFound key (some version))

/-- Compares two versions of a key. -/
def diff (r : Registry) (key : String) (a b : Binary64) : Action (Report Nat) := do
  let before ← Store.loadVersion key a
  let after ← Store.loadVersion key b
  Action.lift do
    let before ← found key a before
    let after ← found key b after
    let before ← Model.ofSchema before.schema
    let after ← Model.ofSchema after.schema
    return r.report key a b (before.changes r.policy after)

/-- The name that a comparison without a store goes by. -/
def comparisonKey : String := "(direct comparison)"

/-- Compares two documents. -/
def compare (r : Registry) (before after : Json) : Except Failure (Report Nat) := do
  let before ← ReadDocument.ofJson before
  let after ← ReadDocument.ofJson after
  return r.report comparisonKey 1 2 (before.model.changes r.policy after.model)

def trackOf (r : Registry) (key : String) (versions : List Binary64) (models : List Model) :
    Except Failure (Track Nat) := do
  let metrics ← Model.steps r.policy models
  return ⟨key, versions, metrics, .ofMetrics metrics⟩

/-- The steps between all versions of a key. -/
def track (r : Registry) (key : String) : Action (Track Nat) := do
  let snapshots ← Store.versions key
  Action.lift do
    if snapshots.length < 2 then
      throw (.insufficientSnapshots (.ofNat snapshots.length))
    let models ← snapshots.mapM fun s => Model.ofSchema s.schema
    r.trackOf key (snapshots.map Snapshot.version) models

/-- The name that a sequence of documents goes by. -/
def documentsKey : String := "(documents)"

/-- The steps between documents, which count as versions from one on. -/
def trackDocuments (r : Registry) (documents : List Json) (key : Option String) :
    Except Failure (Track Nat) := do
  let read ← documents.mapM ReadDocument.ofJson
  let versions := (List.range' 1 read.length).map Binary64.ofNat
  r.trackOf (key.getD documentsKey) versions (read.map ReadDocument.model)

/-- Which part of a schema is shown as text. -/
inductive Scope where
  | whole
  | type (name : String)
  /-- A type and the types that it leads to. -/
  | reachable (name : String)

/-- The schema text of a document. -/
def sdl (r : Registry) (options : Sdl.Options) (scope : Scope) (document : Json) :
    Except Failure String := do
  let model := (← ReadDocument.ofJson document).model
  match scope with
  | .whole => return model.sdl options
  | .type name =>
    if model.defines name then return model.sdlOf options [name]
    else throw (.typeNotFound name)
  | .reachable name =>
    if model.defines name then
      return model.sdlOf options (model.reachable r.customScalars name)
    else throw (.typeNotFound name)

end Registry

end SchemaHistory
