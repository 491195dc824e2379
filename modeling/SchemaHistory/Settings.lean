import SchemaHistory.Change.TypeChange
import SchemaHistory.Files.Tree
import SchemaHistory.Json.Reader
import SchemaHistory.Log
import SchemaHistory.Report.Format
import SchemaHistory.Text.Blank
import SchemaHistory.Validation.Decoder

namespace SchemaHistory

structure Settings where
  /-- The directory of the store, as the user wrote it. -/
  store : String
  least : Severity
  customScalars : List String
  policy : Policy
  format : Format
  logThreshold : Log.Threshold
deriving DecidableEq

namespace Settings

open Validation

def standard : Settings :=
  ⟨"./schemas", .minor, Scalar.customDefault, .baseName, .console, .standard⟩

def storeName : String := "store"
def severityName : String := "minSeverity"
def scalarsName : String := "customScalars"
def policyName : String := "typeChangePolicy"
def formatName : String := "format"
def logName : String := "logLevel"

def names : List String :=
  [storeName, severityName, scalarsName, policyName, formatName, logName]

def nonEmptyText : Decoder String
  | some (.string "") => .refuse .empty
  | other => Validation.text other

/-- One of several values, given by its text. -/
def oneOf {α : Type} (all : List α) (text : α → String) : Decoder α
  | some (.string s) =>
    match all.find? fun a => text a = s with
    | some a => .accepted a
    | none => .refuse (.unknownOption (all.map text) s)
  | some v => .refuse (.wrongTypeForOption (all.map text) v.typeName)
  | none => .refuse (.missing (Problem.choice (all.map text)))

/-- A member that need not be there. -/
def orElse {α : Type} (value : α) (decode : Decoder α) : Decoder α
  | none => .accepted value
  | some v => decode (some v)

def onlyKnown (members : List (String × Json)) : Checked Unit :=
  match (members.map Prod.fst).filter fun n => !names.contains n with
  | [] => .accepted ()
  | unknown => .refuse (.unknownKeys unknown)

/-- Reads settings from an object. A member that is missing has its standard value. -/
def decode (members : List (String × Json)) : Checked Settings :=
  (fun store least scalars policy format log _ => ⟨store, least, scalars, policy, format, log⟩)
    <$> member members storeName (orElse standard.store nonEmptyText)
    <*> member members severityName (orElse standard.least (oneOf Severity.all Severity.text))
    <*> member members scalarsName (orElse standard.customScalars (listOf nonEmptyText))
    <*> member members policyName (orElse standard.policy (oneOf Policy.all Policy.text))
    <*> member members formatName (orElse standard.format (oneOf Format.all Format.text))
    <*> member members logName
      (orElse standard.logThreshold (oneOf Log.Threshold.all Log.Threshold.text))
    <*> onlyKnown members

def members (s : Settings) : List (String × Json) :=
  [(storeName, .string s.store), (severityName, .string s.least.text),
    (scalarsName, .strings s.customScalars), (policyName, .string s.policy.text),
    (formatName, .string s.format.text), (logName, .string s.logThreshold.text)]

/-- Sets members of an object, over those of the same names. -/
def overlay (upper members : List (String × Json)) : List (String × Json) :=
  upper.foldl (fun ms (name, value) => Json.put name value ms) members

/-- Reads settings that the given source is answerable for. -/
def checked (source : String) (members : List (String × Json)) : Except Failure Settings :=
  match decode members with
  | .accepted settings => .ok settings
  | .refused issues => .error (.invalidConfig source (issues.map Issue.line))

/-- Variables of the process, by name. -/
abbrev Environment := List (String × String)

/-- A variable that is set to some text. -/
def valueOf (env : Environment) (name : String) : Option String :=
  (env.lookup name).filter fun value => value != ""

/-- The names in a text, parted by commas. -/
def namesIn (text : String) : List String :=
  ((text.toList.splitOn ',').map fun cs => String.ofList (Text.trimChars cs)).filter (· != "")

def storeVariable : String := "SCHEMA_EVOLUTION_STORE"
def severityVariable : String := "SCHEMA_EVOLUTION_MIN_SEVERITY"
def scalarsVariable : String := "SCHEMA_EVOLUTION_CUSTOM_SCALARS"
def policyVariable : String := "SCHEMA_EVOLUTION_POLICY"
def logVariable : String := "SCHEMA_EVOLUTION_LOG_LEVEL"

/-- The variables that hold settings. -/
def variableNames : List String :=
  [storeVariable, severityVariable, scalarsVariable, policyVariable, logVariable]

/-- The settings that the environment gives. -/
def ofEnvironment (env : Environment) : List (String × Json) :=
  let member (name source : String) (json : String → Json) :=
    Json.member? name ((valueOf env source).map json)
  member storeName storeVariable .string
    ++ member severityName severityVariable .string
    ++ member policyName policyVariable .string
    ++ member logName logVariable .string
    ++ member scalarsName scalarsVariable fun text => .strings (namesIn text)

def fileName : String := ".schema-evolution.json"

/-- The members of a settings file. -/
def readFile (path : String) : FileTree → Except Failure (List (String × Json))
  | .directory _ =>
    .error (.invalidConfig path ["EISDIR: illegal operation on a directory, read"])
  | .file text =>
    match Json.parse? text with
    | none => .error (.invalidConfig path ["JSON syntax error"])
    | some (.object members) => .ok members
    | some _ => .error (.invalidConfig path ["expected a JSON object"])

/-- Settings from a file, which may be missing, and the environment over it. -/
def ofSources (path : String) (file : Option FileTree) (env : Environment) :
    Except Failure Settings :=
  match file with
  | some tree => do checked path (overlay (ofEnvironment env) (← readFile path tree))
  | none => checked "environment" (ofEnvironment env)

/-- Settings as they hold in a directory. A file that the user names has to be there. -/
def load (root : FileTree) (directory : Path) (file : Option String) (env : Environment) :
    Except Failure Settings :=
  let path := Path.resolve directory (file.getD fileName)
  match root.at? path, file with
  | none, some name =>
    if name = "" then ofSources path.text none env
    else .error (.invalidConfig path.text ["file does not exist"])
  | tree, _ => ofSources path.text tree env

/-- Settings with those of a command over them. -/
def withFlags (s : Settings) (store least policy format : Option String) :
    Except Failure Settings :=
  let member (name : String) (value : Option String) := Json.member? name (value.map .string)
  checked "command line" (overlay
    (member storeName store ++ member severityName least ++ member policyName policy
      ++ member formatName format)
    s.members)

end Settings

end SchemaHistory
