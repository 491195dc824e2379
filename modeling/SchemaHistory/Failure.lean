import SchemaHistory.Json.Printer

namespace SchemaHistory

/-- Why an operation was refused. -/
inductive Failure where
  | malformedTypeRef (location detail : String)
  | missingQueryRoot
  | unknownTypeKind (typeName kind : String)
  | invalidRootType (operation typeName detail : String)
  | duplicateDefinition (location : String)
  | invalidDocument (issues : List String)
  | insufficientSnapshots (count : Binary64)
  | snapshotNotFound (key : String) (version : Option Binary64)
  | typeNotFound (typeName : String)
  | invalidKey (key : String)
  | corruptSnapshot (path reason : String)
  | invalidConfig (source : String) (issues : List String)
  | unknownFormat (name : String)
  | unknownSeverity
  | nothingToCompare
  | nothingToTrack
  | unusablePath (reason : String)
  | noText
deriving DecidableEq

namespace Failure

def message : Failure → String
  | malformedTypeRef location detail =>
    s!"Malformed type reference at \"{location}\": {detail}"
  | missingQueryRoot =>
    "Introspection document has no query root type name (__schema.queryType.name)"
  | unknownTypeKind typeName kind => s!"Type \"{typeName}\" has unknown kind \"{kind}\""
  | invalidRootType operation typeName detail =>
    s!"The {operation} root type \"{typeName}\" {detail}"
  | duplicateDefinition location => s!"Duplicate definition of \"{location}\""
  | invalidDocument issues =>
    "Invalid introspection document: " ++ String.intercalate "; " issues
  | insufficientSnapshots count =>
    s!"At least 2 schema snapshots are required for evolution tracking (got {count.text})"
  | snapshotNotFound key none => s!"No snapshot found for key \"{key}\""
  | snapshotNotFound key (some version) =>
    s!"Version {version.text} not found for key \"{key}\""
  | typeNotFound typeName => s!"Type \"{typeName}\" is not defined in the schema"
  | invalidKey key => s!"Schema key \"{key}\" does not map to a directory inside the store"
  | corruptSnapshot path reason => s!"Snapshot file \"{path}\" could not be read: {reason}"
  | invalidConfig source issues =>
    s!"Invalid configuration in {source}: " ++ String.intercalate "; " issues
  | unknownFormat name => "Unhandled value: " ++ Json.quote name
  | unknownSeverity => "Severity must be one of: minor, major, critical."
  | nothingToCompare => "Provide either --before/--after or --key with --v1/--v2"
  | nothingToTrack => "Provide either --key or --files"
  | unusablePath reason => reason
  | noText => "Cannot convert object to primitive value"

/-- A name for the kind of failure that programs can rely on. -/
def code : Failure → Option String
  | malformedTypeRef .. => some "MALFORMED_TYPE_REF"
  | missingQueryRoot => some "MISSING_QUERY_ROOT"
  | unknownTypeKind .. => some "UNKNOWN_TYPE_KIND"
  | invalidRootType .. => some "INVALID_ROOT_TYPE"
  | duplicateDefinition .. => some "DUPLICATE_DEFINITION"
  | invalidDocument .. => some "INVALID_DOCUMENT"
  | insufficientSnapshots .. => some "INSUFFICIENT_SNAPSHOTS"
  | snapshotNotFound .. => some "SNAPSHOT_NOT_FOUND"
  | typeNotFound .. => some "TYPE_NOT_FOUND"
  | invalidKey .. => some "INVALID_KEY"
  | corruptSnapshot .. => some "CORRUPT_SNAPSHOT"
  | invalidConfig .. => some "INVALID_CONFIG"
  | _ => none

/-- The place that the failure is about. -/
def location : Failure → Option String
  | malformedTypeRef location _ => some location
  | missingQueryRoot => some "__schema.queryType"
  | unknownTypeKind typeName _ => some typeName
  | invalidRootType _ typeName _ => some typeName
  | duplicateDefinition location => some location
  | snapshotNotFound key _ => some key
  | typeNotFound typeName => some typeName
  | invalidKey key => some key
  | corruptSnapshot path _ => some path
  | invalidConfig source _ => some source
  | _ => none

/-- What the user can do next. -/
def suggestedAction : Failure → Option String
  | malformedTypeRef .. =>
    some ("Re-run introspection with enough nested ofType levels and check the document was not "
      ++ "truncated.")
  | missingQueryRoot => some "Include queryType \x7b name \x7d in the introspection query."
  | invalidDocument .. => some "Provide the JSON result of a standard introspection query."
  | insufficientSnapshots .. => some "Store another snapshot before tracking evolution."
  | snapshotNotFound .. =>
    some "Run `schema-evolution history -k <key>` to see the stored versions."
  | invalidKey .. => some "Use a key made of letters, digits, dashes or dots."
  | corruptSnapshot .. => some "Delete or restore the file from version control."
  | _ => none

def issues : Failure → Option (List String)
  | invalidDocument issues => some issues
  | _ => none

end Failure

end SchemaHistory
