import SchemaHistory.Failure
import SchemaHistory.Files.Path

namespace SchemaHistory

/-- A file with its text, or a directory with its entries in the order of their names. -/
inductive FileTree where
  | file (text : String)
  | directory (entries : List (String × FileTree))

namespace FileTree

abbrev Entries := List (String × FileTree)

/-- Sets an entry of a directory. -/
def put (name : String) (tree : FileTree) : Entries → Entries
  | [] => [(name, tree)]
  | (n, t) :: entries =>
    if n = name then (name, tree) :: entries
    else if name < n then (name, tree) :: (n, t) :: entries
    else (n, t) :: put name tree entries

def remove (name : String) (entries : Entries) : Entries :=
  entries.filter fun e => e.1 != name

def isDirectory : FileTree → Bool
  | directory _ => true
  | file _ => false

def child? (name : String) : FileTree → Option FileTree
  | directory entries => entries.lookup name
  | file _ => none

/-- What stands at a place. -/
def at? : Path → FileTree → Option FileTree
  | [], tree => some tree
  | name :: path, tree => (tree.child? name).bind (at? path)

/-- Follows the names of a path text one by one. Each has to be there, and to be a directory if
another name follows. `above` holds the trees passed on the way, nearest first. -/
def walk (above : List FileTree) (tree : FileTree) : List String → Option FileTree
  | [] => some tree
  | name :: names =>
    match tree with
    | file _ => none
    | directory entries =>
      if name = "" ∨ name = "." then walk above tree names
      else if name = ".." then
        match above with
        | [] => walk [] tree names
        | t :: above => walk above t names
      else
        match entries.lookup name with
        | some t => walk (tree :: above) t names
        | none => none

/-- Goes down to a directory and returns what is passed on the way, nearest first. -/
def passed (above : List FileTree) (tree : FileTree) : Path → List FileTree
  | [] => above
  | name :: path =>
    match tree.child? name with
    | some t => passed (tree :: above) t path
    | none => above

/-- What a path text leads to, seen from a directory. An empty text leads nowhere. -/
def find? (root : FileTree) (base : Path) (text : String) : Option FileTree :=
  if text.isEmpty then none
  else if ['/'].isPrefixOf text.toList then walk [] root (Path.split text)
  else
    match root.at? base with
    | some tree => walk (passed [] root base) tree (Path.split text)
    | none => none

/-- Changes what stands at a place. Missing directories on the way are made, and a file on the way
stops the change. -/
def update? (change : Option FileTree → Option FileTree) :
    Path → Option FileTree → Option (Option FileTree)
  | [], tree => some (change tree)
  | _ :: _, some (file _) => none
  | name :: path, some (directory entries) =>
    (update? change path (entries.lookup name)).map fun
      | some t => some (directory (put name t entries))
      | none => some (directory (remove name entries))
  | name :: path, none =>
    (update? change path none).map fun
      | some t => some (directory [(name, t)])
      | none => none

/-- Puts a tree at a place, or clears the place. -/
def replace (path : Path) (tree : Option FileTree) (root : FileTree) : FileTree :=
  match update? (fun _ => tree) path (some root) with
  | some (some t) => t
  | _ => root

mutual

/-- Every place in a tree, a directory with a slash after its name and before its entries. -/
def listing (above : String) : FileTree → List String
  | file _ => []
  | directory entries => entryListing above entries

def entryListing (above : String) : Entries → List String
  | [] => []
  | (name, file _) :: entries => (above ++ name) :: entryListing above entries
  | (name, directory inner) :: entries =>
    (above ++ name ++ "/") :: listing (above ++ name ++ "/") (directory inner)
      ++ entryListing above entries

end

mutual

/-- Every file of a tree, with its place and its text. -/
def files (above : Path) : FileTree → List (Path × String)
  | file text => [(above, text)]
  | directory entries => entryFiles above entries

def entryFiles (above : Path) : Entries → List (Path × String)
  | [] => []
  | (name, tree) :: entries => files (above ++ [name]) tree ++ entryFiles above entries

end

end FileTree

end SchemaHistory
