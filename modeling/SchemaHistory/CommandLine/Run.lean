import SchemaHistory.CommandLine.Command
import SchemaHistory.Registry
import SchemaHistory.Settings

namespace SchemaHistory.CommandLine

/-- What a command finds around it. -/
structure World where
  files : FileTree
  directory : Path
  environment : Settings.Environment
  now : String
  palette : Text.Palette

/-- What a command leaves behind. -/
structure Outcome where
  files : FileTree
  stdout : String
  stderr : String
  exitCode : Nat

def ended (lines : List String) : String :=
  String.join (lines.map (· ++ "\n"))

def Stop.message : Stop → String
  | .versionAsked => "1.0.0"
  | .invalidVersion option value =>
    s!"error: option '{option}' argument '{value}' is invalid. Version must be a positive integer."
  | .missingValue option => s!"error: option '{option}' argument missing"
  | .missingOption option => s!"error: required option '{option}' not specified"
  | .unknownOption word similar =>
    s!"error: unknown option '{word}'" ++ Suggestion.question similar
  | .unknownCommand word similar =>
    s!"error: unknown command '{word}'" ++ Suggestion.question similar
  | .noCommand => "error: no command given"

def Stop.outcome (files : FileTree) (stop : Stop) : Outcome :=
  match stop with
  | .versionAsked => ⟨files, ended [stop.message], "", 0⟩
  | _ => ⟨files, "", ended [stop.message], 1⟩

/-- A failure as the user sees it: what happened, and what to do next. -/
def failureLines (failure : Failure) : List String :=
  ("❌ Error: " ++ failure.message) :: failure.suggestedAction.toList.map ("   " ++ ·)

/-- The document that a word stands for: the text of a file, or the word itself. -/
def World.document (w : World) (word : String) : Except Failure String :=
  match w.files.find? w.directory word with
  | none => .ok word
  | some (.file text) => .ok text
  | some (.directory _) =>
    .error (.unusablePath "EISDIR: illegal operation on a directory, read")

/-- What a command shows. The text goes to a file if the user names one, the lines do not. -/
structure Shown where
  lines : List String
  text : Option String
  exitCode : Nat
  failure : Option Failure

namespace Shown

def ofLines (lines : List String) : Shown := ⟨lines, none, 0, none⟩

def ofText (text : String) : Shown := ⟨[], some text, 0, none⟩

end Shown

def registry (w : World) (s : Settings) : Registry :=
  { Registry.standard w.now with
    least := s.least, policy := s.policy, customScalars := s.customScalars }

def reportText (w : World) (s : Settings) (r : Report Nat) : String :=
  r.render w.palette .detected s.format

/-- Two lines on a key, and an empty one. -/
def keyLines (key : String) (versions : List Snapshot) : List String :=
  let latest := match versions.getLast? with
    | some v => s!"    Latest: v{v.version.text} ({v.timestamp})"
    | none => "    Latest: unknown"
  ["  • " ++ key, latest, ""]

/-- Goes through keys until the versions of one cannot be listed. -/
def keysLines : List String → Action (List String × Option Failure)
  | [] => return ([], none)
  | key :: keys => do
    match ← Action.attempt (Store.versions key) with
    | .error failure => return ([], some failure)
    | .ok versions =>
      let (lines, failure) ← keysLines keys
      return (keyLines key versions ++ lines, failure)

def versionLine (v : Snapshot) : String :=
  s!"  v{v.version.text} — {v.timestamp} ({v.schema.types.length} types)"

/-- A word that is given and not empty. -/
def nonEmpty (word : Option String) : Option String :=
  word.filter (· != "")

/-- Carries a command out on the store. -/
def Command.perform (w : World) (s : Settings) : Command → Action Shown
  | .snapshot key document version => do
    let text ← Action.lift (w.document document)
    let kept ← (registry w s).snapshot key (.string text) version
    return .ofLines ["✅ Schema snapshot saved", "   Key:     " ++ kept.key,
      "   Version: v" ++ kept.version.text, s!"   Types:   {kept.schema.types.length}",
      "   Stored:  " ++ s.store]
  | .check key document failOn => do
    let text ← Action.lift (w.document document)
    let report ← (registry w s).check key (.string text)
    let failed := failOn.any fun f => report.changes.any fun c => f ≤ c.severity
    return { Shown.ofText (reportText w s report) with exitCode := if failed then 1 else 0 }
  | .diff key before after v1 v2 =>
    match nonEmpty before, nonEmpty after, nonEmpty key, v1, v2 with
    | some before, some after, _, _, _ => do
      let before ← Action.lift (w.document before)
      let after ← Action.lift (w.document after)
      let report ← Action.lift ((registry w s).compare (.string before) (.string after))
      return .ofText (reportText w s report)
    | _, _, some key, some v1, some v2 => do
      return .ofText (reportText w s (← (registry w s).diff key v1 v2))
    | _, _, _, _, _ => Action.lift (.error .nothingToCompare)
  | .sdl document type deep descriptions deprecations => do
    let text ← Action.lift (w.document document)
    let scope : Registry.Scope := match type with
      | none => .whole
      | some name => if deep then .reachable name else .type name
    return .ofText (← Action.lift
      ((registry w s).sdl ⟨descriptions, deprecations⟩ scope (.string text)))
  | .track key documents => do
    let track ← match documents, nonEmpty key with
      | some words, _ => Action.lift do
        let texts ← words.mapM w.document
        (registry w s).trackDocuments (texts.map .string) key
      | none, some key => (registry w s).track key
      | none, none => Action.lift (.error .nothingToTrack)
    return .ofText (track.render w.palette s.format)
  | .list => do
    let keys ← Store.keys
    if keys.isEmpty then return .ofLines ["📭 No schemas stored yet."]
    else
      let (lines, failure) ← keysLines keys
      return ⟨s!"📋 Stored schemas ({keys.length}):\n" :: lines, none, 0, failure⟩
  | .history key => do
    let versions ← Store.versions key
    if versions.isEmpty then
      return .ofLines ["📭 No versions found for \"" ++ key ++ "\""]
    else
      return .ofLines (("📜 Version history for \"" ++ key ++ "\":\n")
        :: versions.map versionLine)

/-- Writes a file that the user names. Its directory has to be there. -/
def writeOutput (w : World) (files : FileTree) (name text : String) :
    Except Failure FileTree :=
  let path := Path.resolve w.directory name
  match files.at? path.parent, files.at? path with
  | some (.directory _), some (.directory _) =>
    .error (.unusablePath s!"EISDIR: illegal operation on a directory, open '{name}'")
  | some (.directory _), _ => .ok (files.replace path (some (.file text)))
  | _, _ => .error (.unusablePath s!"ENOENT: no such file or directory, open '{name}'")

/-- Shows the text of a command, or writes it to the file that the user names. -/
def emit (w : World) (output : Option String) (files : FileTree) (text : Option String) :
    Except Failure (FileTree × List String) :=
  match text, nonEmpty output with
  | none, _ => .ok (files, [])
  | some text, none => .ok (files, [text])
  | some text, some name =>
    (writeOutput w files name text).map (·, ["📄 Output written to " ++ name])

namespace Invocation

def settings (w : World) (i : Invocation) : Except Failure Settings := do
  match i.command with
  | .check _ _ none => throw .unknownSeverity
  | _ => pure ()
  let settings ← Settings.load w.files w.directory i.config w.environment
  settings.withFlags i.store i.least i.policy i.format

/-- Carries a command out. -/
def run (w : World) (i : Invocation) : Outcome :=
  match i.settings w with
  | .error failure => ⟨w.files, "", ended (failureLines failure), 1⟩
  | .ok s =>
    let path := Path.resolve w.directory s.store
    let step := i.command.perform w s ⟨path, w.files.at? path⟩
    let files := w.files.replace path step.store.root
    let log := Log.written s.logThreshold w.palette w.now step.log
    match step.answer with
    | .error failure => ⟨files, "", ended (log ++ failureLines failure), 1⟩
    | .ok shown =>
      match emit w i.output files shown.text, shown.failure with
      | .error failure, _ =>
        ⟨files, ended shown.lines, ended (log ++ failureLines failure), 1⟩
      | .ok (files, lines), some failure =>
        ⟨files, ended (shown.lines ++ lines), ended (log ++ failureLines failure), 1⟩
      | .ok (files, lines), none =>
        ⟨files, ended (shown.lines ++ lines), ended log, shown.exitCode⟩

end Invocation

/-- Carries out the words after the program's name. -/
def run (w : World) (words : List String) : Outcome :=
  match Invocation.parse words with
  | .error stop => stop.outcome w.files
  | .ok invocation => invocation.run w

end SchemaHistory.CommandLine
