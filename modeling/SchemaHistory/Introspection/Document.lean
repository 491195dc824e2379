import SchemaHistory.Introspection.Basic
import SchemaHistory.Json.Lenient

namespace SchemaHistory.Introspection

open Validation

def typeRef : Decoder RawRef := fun v =>
  match v.bind RawRef.ofJson? with
  | some ref => .accepted ref
  | none => .refuse .notTypeRef

def inputValue : Decoder InputValue := objectOf fun ms =>
  InputValue.mk
    <$> member ms "name" text
    <*> member ms "description" (nullable text)
    <*> member ms "type" typeRef
    <*> member ms "defaultValue" (nullable text)

def field : Decoder Field := objectOf fun ms =>
  Field.mk
    <$> member ms "name" text
    <*> member ms "description" (nullable text)
    <*> member ms "args" (nullable (listOf inputValue))
    <*> member ms "type" typeRef
    <*> member ms "isDeprecated" (nullable flag)
    <*> member ms "deprecationReason" (nullable text)

def enumValue : Decoder EnumValue := objectOf fun ms =>
  EnumValue.mk
    <$> member ms "name" text
    <*> member ms "description" (nullable text)
    <*> member ms "isDeprecated" (nullable flag)
    <*> member ms "deprecationReason" (nullable text)

def name : Decoder String := objectOf fun ms => member ms "name" text

def typeEntry : Decoder TypeEntry := objectOf fun ms =>
  TypeEntry.mk
    <$> member ms "kind" text
    <*> member ms "name" text
    <*> member ms "description" (nullable text)
    <*> member ms "fields" (nullable (listOf field))
    <*> member ms "inputFields" (nullable (listOf inputValue))
    <*> member ms "interfaces" (nullable (listOf name))
    <*> member ms "enumValues" (nullable (listOf enumValue))
    <*> member ms "possibleTypes" (nullable (listOf name))

def root : Decoder Root := objectOf fun ms => Root.mk <$> member ms "name" (nullable text)

/-- Every member that the checks do not name is dropped, except inside type references. -/
def schema : Decoder Schema := objectOf fun ms =>
  Schema.mk
    <$> member ms "queryType" (nullable root)
    <*> member ms "mutationType" (nullable root)
    <*> member ms "subscriptionType" (nullable root)
    <*> member ms "types" (listOf typeEntry)

def envelope : Decoder Schema := objectOf fun ms => member ms "__schema" schema

/-- The messages of the errors that a response reports. -/
def responseErrors : Decoder (List String) :=
  listOf (objectOf fun ms => member ms "message" text)

/-- How many issues of a document are spelled out. -/
def reportedIssues : Nat := 5

def issueLines (issues : List Issue) : List String :=
  let lines := (issues.take reportedIssues).map Issue.line
  if issues.length ≤ reportedIssues then lines
  else lines ++ [s!"…and {issues.length - reportedIssues} more"]

def decodeEnvelope (value : Json) : Except Failure Schema :=
  match envelope (some value) with
  | .accepted s => .ok s
  | .refused issues => .error (.invalidDocument (issueLines issues))

/-- Reads the answer to an introspection query: the answer's data, or a response around it. A
response with errors and without data fails with these errors. -/
def ofValue (value : Json) : Except Failure Schema :=
  match value.get? "data" with
  | none => decodeEnvelope value
  | some (.object members) => decodeEnvelope (.object members)
  | some data =>
    match responseErrors (value.get? "errors") with
    | .accepted (m :: ms) =>
      .error (.invalidDocument
        ((m :: ms).map ("introspection query returned an error: " ++ ·)))
    | _ => decodeEnvelope data

def valueOfText (text : String) : Except Failure Json :=
  match Json.parseLenient? text with
  | some value => .ok value
  | none => .error (.invalidDocument ["not valid JSON (JSON syntax error)"])

/-- Reads a document. A string is the JSON text of one. -/
def parse (document : Json) : Except Failure Schema :=
  match document with
  | .string text =>
    match valueOfText text with
    | .ok value => ofValue value
    | .error failure => .error failure
  | value => ofValue value

end SchemaHistory.Introspection
