import SchemaHistory.Files.Tree
import SchemaHistory.Log
import SchemaHistory.Store.Key
import SchemaHistory.Store.Snapshot

namespace SchemaHistory

/-- A directory of snapshots: where it is, and what stands there. -/
structure Store where
  path : Path
  root : Option FileTree

/-- What an operation leaves behind: the store, the log, and its answer. -/
structure Step (α : Type) where
  store : Store
  log : List Log.Entry
  answer : Except Failure α

/-- An operation on a store. A failure ends it and keeps what was done and logged before. -/
def Action (α : Type) := Store → Step α

namespace Action

instance : Monad Action where
  pure a := fun s => ⟨s, [], .ok a⟩
  bind x f := fun s =>
    let step := x s
    match step.answer with
    | .error failure => ⟨step.store, step.log, .error failure⟩
    | .ok a =>
      let next := f a step.store
      ⟨next.store, step.log ++ next.log, next.answer⟩

/-- An operation that only looks at the store. -/
def read {α : Type} (f : Store → Except Failure α) : Action α :=
  fun s => ⟨s, [], f s⟩

/-- An operation that may change the store. -/
def write (f : Store → Except Failure Store) : Action Unit := fun s =>
  match f s with
  | .ok s' => ⟨s', [], .ok ()⟩
  | .error failure => ⟨s, [], .error failure⟩

def lift {α : Type} (answer : Except Failure α) : Action α :=
  fun s => ⟨s, [], answer⟩

/-- Carries an operation out and goes on even if it fails. -/
def attempt {α : Type} (x : Action α) : Action (Except Failure α) := fun s =>
  let step := x s
  ⟨step.store, step.log, .ok step.answer⟩

def log (level : Log.Level) (message : String) (data : List (String × Json)) : Action Unit :=
  fun s => ⟨s, [⟨level, message, data⟩], .ok ()⟩

end Action

namespace Store

/-- The file that copies the highest version of a key. -/
def latestFile : String := "latest.json"

def versionFile (version : Binary64) : String :=
  "v" ++ version.text ++ ".json"

/-- The version that a file name stands for. -/
def versionOf? (name : String) : Option Binary64 :=
  match name.toList with
  | 'v' :: cs =>
    let digits := cs.takeWhile Char.isDigit
    if !digits.isEmpty && cs.dropWhile Char.isDigit == ".json".toList then
      some (.ofDecimal false (Nat.ofDigitChars 10 digits 0) 0)
    else none
  | _ => none

/-- The directory of a key. It has to be a child of the store. -/
def directoryOf (s : Store) (key : String) : Except Failure Path :=
  let path := Path.resolve s.path (Key.directoryName key)
  if path.parent = s.path then .ok path else .error (.invalidKey key)

/-- What stands at a place in the store. -/
def at? (s : Store) (path : Path) : Option FileTree :=
  s.root.bind (FileTree.at? (path.drop s.path.length))

def notDirectory (call : String) (path : Path) : Failure :=
  .unusablePath s!"ENOTDIR: not a directory, {call} '{path.text}'"

/-- The entries of a directory, none if it is not there. -/
def entries (s : Store) (path : Path) : Except Failure FileTree.Entries :=
  match s.at? path with
  | none => .ok []
  | some (.directory entries) => .ok entries
  | some (.file _) => .error (notDirectory "scandir" path)

/-- Writes a file, and the directories above it that are missing. -/
def writeFile (s : Store) (directory : Path) (name text : String) : Except Failure Store :=
  match s.at? (directory ++ [name]) with
  | some (.directory _) =>
    .error (.unusablePath
      s!"EISDIR: illegal operation on a directory, open '{(directory ++ [name]).text}'")
  | _ =>
    let inside := directory.drop s.path.length ++ [name]
    match FileTree.update? (fun _ => some (.file text)) inside s.root with
    | some root => .ok { s with root := root }
    | none => .error (notDirectory "mkdir" directory)

/-- Clears a place. -/
def clear (s : Store) (path : Path) : Store :=
  match FileTree.update? (fun _ => none) (path.drop s.path.length) s.root with
  | some root => { s with root := root }
  | none => s

/-- Reads a snapshot file that is there. -/
def snapshotIn (path : Path) : FileTree → Except Failure Snapshot
  | .file text =>
    match Snapshot.parse text with
    | .ok snapshot => .ok snapshot
    | .error reason => .error (.corruptSnapshot path.text reason)
  | .directory _ =>
    .error (.corruptSnapshot path.text "EISDIR: illegal operation on a directory, read")

/-- Reads a snapshot file if it is there. -/
def snapshotAt? (s : Store) (path : Path) : Except Failure (Option Snapshot) :=
  match s.at? path with
  | none => .ok none
  | some tree => (snapshotIn path tree).map some

/-- The highest version among the files of a directory, or zero. -/
def highest (entries : FileTree.Entries) : Binary64 :=
  (entries.filterMap fun e => versionOf? e.1).foldl Binary64.max 0

/-- Writes a version, and its copy as the latest unless a higher one is there. -/
def put (key : String) (version : Binary64) (content : Json) : Action Unit := do
  let directory ← Action.read fun s => s.directoryOf key
  let highest ← Action.read fun s => (s.entries directory).map highest
  Action.write fun s => s.writeFile directory (versionFile version) content.pretty
  if highest ≤ version then
    Action.write fun s => s.writeFile directory latestFile content.pretty
  Action.log .debug "Snapshot written"
    [("key", .string key), ("version", .number version),
      ("latest", .number (highest.max version))]

def save (snapshot : Snapshot) : Action Unit :=
  put snapshot.key snapshot.version snapshot.toJson

/-- The snapshot with the highest version of a key. -/
def load (key : String) : Action (Option Snapshot) :=
  Action.read fun s => do
    s.snapshotAt? ((← s.directoryOf key) ++ [latestFile])

def loadVersion (key : String) (version : Binary64) : Action (Option Snapshot) :=
  Action.read fun s => do
    s.snapshotAt? ((← s.directoryOf key) ++ [versionFile version])

/-- Reads version files one by one. One that cannot be read is logged and passed over. -/
def readVersions (directory : Path) : FileTree.Entries → Action (List Snapshot)
  | [] => return []
  | (name, tree) :: entries =>
    match snapshotIn (directory ++ [name]) tree with
    | .ok snapshot => return snapshot :: (← readVersions directory entries)
    | .error failure => do
      Action.log .warn "Skipping unreadable snapshot"
        [("file", .string name), ("error", .string failure.message)]
      readVersions directory entries

/-- Every version of a key, the lowest first. -/
def versions (key : String) : Action (List Snapshot) := do
  let directory ← Action.read fun s => s.directoryOf key
  let entries ← Action.read fun s => s.entries directory
  let snapshots ← readVersions directory (entries.filter fun e => (versionOf? e.1).isSome)
  return snapshots.mergeSort fun a b => a.version ≤ b.version

/-- Reads the keys of directories that have a latest version. Where it cannot be read, the name of
the directory stands for the key. -/
def readKeys (path : Path) : FileTree.Entries → Action (List String)
  | [] => return []
  | (name, tree) :: entries =>
    match tree.child? latestFile with
    | none => readKeys path entries
    | some latest =>
      match snapshotIn (path ++ [name, latestFile]) latest with
      | .ok snapshot => return snapshot.key :: (← readKeys path entries)
      | .error failure => do
        Action.log .warn "Using directory name for unreadable snapshot"
          [("dir", .string name), ("error", .string failure.message)]
        return name :: (← readKeys path entries)

/-- Every key of the store, in the order of 16-bit units. -/
def keys : Action (List String) := do
  let path ← Action.read fun s => .ok s.path
  let entries ← Action.read fun s => s.entries s.path
  return Text.sortByUnits (← readKeys path entries)

/-- Deletes all versions of a key. -/
def delete (key : String) : Action Unit := do
  let directory ← Action.read fun s => s.directoryOf key
  Action.write fun s => .ok (s.clear directory)

end Store

end SchemaHistory
