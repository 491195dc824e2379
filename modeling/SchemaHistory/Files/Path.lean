namespace SchemaHistory

/-- A place in a tree of files, as the names that lead to it from the root. -/
abbrev Path := List String

namespace Path

/-- The names in a path text, with empty ones where slashes meet. -/
def split (text : String) : List String :=
  (text.toList.splitOn '/').map String.ofList

/-- Follows one name: a dot stays, two dots go up. -/
def follow (path : Path) (name : String) : Path :=
  if name = "" ∨ name = "." then path
  else if name = ".." then path.dropLast
  else path ++ [name]

/-- The place that a path text means, seen from a directory. -/
def resolve (base : Path) (text : String) : Path :=
  let start := if ['/'].isPrefixOf text.toList then [] else base
  (split text).foldl follow start

def parent (path : Path) : Path :=
  path.dropLast

def text (path : Path) : String :=
  "/" ++ String.intercalate "/" path

end Path

end SchemaHistory
