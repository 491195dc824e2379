import SchemaHistory.Change.Basic
import SchemaHistory.CommandLine.Options
import SchemaHistory.CommandLine.Suggestion

namespace SchemaHistory.CommandLine

/-- What a command line asks for. Documents are given by the name of a file or as JSON text. -/
inductive Command where
  | snapshot (key document : String) (version : Option Binary64)
  /-- `failOn` is the least severity that counts as failure, if the word for it is one. -/
  | check (key document : String) (failOn : Option Severity)
  | diff (key before after : Option String) (v1 v2 : Option Binary64)
  | sdl (document : String) (type : Option String) (deep descriptions deprecations : Bool)
  | track (key : Option String) (documents : Option (List String))
  | list
  | history (key : String)

/-- A command with the settings given beside it. -/
structure Invocation where
  command : Command
  config : Option String
  store : Option String
  least : Option String
  policy : Option String
  format : Option String
  output : Option String

namespace Invocation

def programOptions : List OptionSpec :=
  [.showVersion 'V' "version", .valued (some 'c') "config" "<file>" .any false]

def commonOptions : List OptionSpec :=
  [.valued (some 's') "store" "<dir>" .any false,
    .valued none "min-severity" "<severity>" .any false,
    .valued none "policy" "<policy>" .any false,
    .valued (some 'f') "format" "<format>" .any false,
    .valued (some 'o') "output" "<file>" .any false]

def keyOption (isRequired : Bool) : OptionSpec :=
  .valued (some 'k') "key" "<key>" .any isRequired

def dataOption : OptionSpec :=
  .valued (some 'd') "data" "<data>" .any true

/-- The options of each command, and how their values make the command. -/
def commands : List (String × List OptionSpec × (Words → Command)) :=
  let text (w : Words) (name : String) := (w.value? name).getD ""
  let version (w : Words) (name : String) := (w.value? name).bind OptionSpec.version?
  [("snapshot", [keyOption true, dataOption,
      .valued none "set-version" "<n>" .version false],
      fun w => .snapshot (text w "key") (text w "data") (version w "set-version")),
    ("check", [keyOption true, dataOption, .valued none "fail-on" "<severity>" .any false],
      fun w => .check (text w "key") (text w "data")
        (Severity.ofText? ((w.value? "fail-on").getD "critical"))),
    ("diff", [keyOption false, .valued none "before" "<data>" .any false,
      .valued none "after" "<data>" .any false, .valued none "v1" "<n>" .version false,
      .valued none "v2" "<n>" .version false],
      fun w => .diff (w.value? "key") (w.value? "before") (w.value? "after") (version w "v1")
        (version w "v2")),
    ("sdl", [dataOption, .valued (some 't') "type" "<name>" .any false, .switch "deep",
      .switch "descriptions", .switch "deprecations"],
      fun w => .sdl (text w "data") (w.value? "type") (w.has "deep") (w.has "descriptions")
        (w.has "deprecations")),
    ("track", [keyOption false, .valued none "files" "<files...>" .many false],
      fun w => .track (w.value? "key") (if w.has "files" then some (w.values "files") else none)),
    ("list", [], fun _ => .list),
    ("history", [keyOption true], fun w => .history (text w "key"))]

/-- The command that explains the others. -/
def helpName : String := "help"

/-- A complaint about an option that is not known. Only a long one brings names to mind. -/
def unknownOption (specs : List OptionSpec) (word : String) : Stop :=
  let names := (specs.map OptionSpec.long ++ [helpName]).map ("--" ++ ·)
  .unknownOption word (if "--".toList.isPrefixOf word.toList then Suggestion.similar word names
    else [])

def unknownCommand (word : String) : Stop :=
  .unknownCommand word (Suggestion.similar word (commands.map Prod.fst ++ [helpName]))

/-- Reads the words after the program's name. Options of the program may stand anywhere; words that
it does not know are left to the command. Words without a use are passed over. -/
def parse (words : List String) : Except Stop Invocation := do
  let outer ← sortWords programOptions none .empty words
  match outer.operands.reverse, outer.unknown.reverse with
  | [], [] => throw .noCommand
  | [], word :: _ => throw (unknownOption programOptions word)
  | name :: _, rest =>
    match commands.lookup name with
    | none => throw (unknownCommand name)
    | some (own, command) =>
      let specs := own ++ commonOptions
      let inner ← sortWords specs none .empty rest
      match specs.find? fun s => s.isRequired && !inner.has s.long with
      | some spec => throw (.missingOption spec.title)
      | none => pure ()
      match inner.unknown.getLast? with
      | some word => throw (unknownOption (specs ++ programOptions) word)
      | none => pure ()
      return ⟨command inner, outer.value? "config", inner.value? "store",
        inner.value? "min-severity", inner.value? "policy", inner.value? "format",
        inner.value? "output"⟩

end Invocation

end SchemaHistory.CommandLine
