import Std.Time.Format
import SchemaHistory.CommandLine.Run

namespace SchemaHistory.CommandLine

/-- The words of a command that may name files. -/
def Invocation.fileNames (i : Invocation) : List String :=
  let documents := match i.command with
    | .snapshot _ document _ => [document]
    | .check _ document _ => [document]
    | .diff _ before after _ _ => before.toList ++ after.toList
    | .sdl document _ _ _ _ => [document]
    | .track _ documents => documents.getD []
    | _ => []
  i.config.getD Settings.fileName :: i.output.toList ++ documents

/-- The names on the way to a file, and its own. -/
def stations (name : String) : List String :=
  let names := Path.split name
  let start := if ['/'].isPrefixOf name.toList then "/" else ""
  (List.range' 1 names.length).map fun n => start ++ String.intercalate "/" (names.take n)

/-- The time of day, in milliseconds and without an offset. -/
def timeText : IO String := do
  let time ← Std.Time.Timestamp.now
  let date := (Std.Time.DateTime.ofTimestamp time .UTC).toPlainDateTime
  return date.format "uuuu-MM-dd'T'HH:mm:ss.SSS'Z'"

/-- The text of a file. A file that is not UTF-8 has none. -/
def readText (path : String) : IO String := do
  return (String.fromUTF8? (← IO.FS.readBinFile path)).getD "\ufffd"

/-- A place on the disk. Its name is its root. -/
def place (path : String) : IO.FS.DirEntry := ⟨path, ""⟩

def isDirectory (path : String) : IO Bool :=
  (place path).root.isDir

def isThere (path : String) : IO Bool :=
  (place path).root.pathExists

/-- Reads a file, or a directory with everything in it. -/
partial def readTree (path : String) : IO FileTree := do
  if ← isDirectory path then
    let mut entries : FileTree.Entries := []
    for entry in ← (place path).root.readDir do
      entries := FileTree.put entry.fileName (← readTree (path ++ "/" ++ entry.fileName)) entries
    return .directory entries
  else return .file (← readText path)

/-- Adds what a name leads to: a directory without its entries, or a file. -/
def addNamed (directory : Path) (root : FileTree) (name : String) : IO FileTree := do
  let path := Path.resolve directory name
  if (root.at? path).isSome then return root
  else if ← isDirectory path.text then return root.replace path (some (.directory []))
  else if ← isThere path.text then return root.replace path (some (.file (← readText path.text)))
  else return root

/-- Writes the files that a command has changed. -/
def writeChanges (before after : FileTree) : IO Unit := do
  for (path, text) in after.files [] do
    let same := match before.at? path with
      | some (.file old) => old == text
      | _ => false
    unless same do
      IO.FS.createDirAll path.parent.text
      IO.FS.writeFile path.text text

def finish (outcome : Outcome) : IO UInt32 := do
  IO.print outcome.stdout
  IO.eprint outcome.stderr
  return outcome.exitCode.toUInt32

/-- Reads what a command needs, carries it out, and writes what it changed. -/
def runHere (words : List String) : IO UInt32 := do
  match Invocation.parse words with
  | .error stop => finish (stop.outcome (.directory []))
  | .ok invocation =>
    let directory := Path.resolve [] (← IO.currentDir).toString
    let mut root := FileTree.replace directory (some (.directory [])) (.directory [])
    for name in invocation.fileNames.flatMap stations do
      root ← addNamed directory root name
    let environment ← Settings.variableNames.filterMapM fun name => do
      return (← IO.getEnv name).map (name, ·)
    let palette : Text.Palette := if ← (← IO.getStdout).isTty then .coloured else .plain
    let world : World := ⟨root, directory, environment, ← timeText, palette⟩
    if let .ok settings := invocation.settings world then
      let store := Path.resolve directory settings.store
      if ← isThere store.text then
        root := root.replace store (some (← readTree store.text))
    let outcome := invocation.run { world with files := root }
    writeChanges root outcome.files
    finish outcome

end SchemaHistory.CommandLine

def main (words : List String) : IO UInt32 :=
  SchemaHistory.CommandLine.runHere words
