namespace SchemaHistory

/-- The type of a field or an argument: a named type, inside wrappers. -/
inductive TypeRef where
  | named (name : String)
  | list (item : TypeRef)
  | nonNull (inner : TypeRef)
deriving DecidableEq

inductive Wrapper where
  | list
  | nonNull
deriving DecidableEq

namespace Wrapper

/-- The name of a wrapper in introspection documents. -/
def kind : Wrapper → String
  | list => "LIST"
  | nonNull => "NON_NULL"

def ofKind? (kind : String) : Option Wrapper :=
  if kind = "LIST" then some list
  else if kind = "NON_NULL" then some nonNull
  else none

end Wrapper

/-- What is wrong with a type reference. -/
inductive RefFault where
  | noInnerType (wrapper : Wrapper)
  | noName (kind : String)
  | nestedNonNull
  | invalidName (name : String)
  | doubledMark
deriving DecidableEq

def RefFault.message : RefFault → String
  | noInnerType wrapper => s!"{wrapper.kind} wrapper has no ofType"
  | noName kind => s!"named type of kind \"{kind}\" has no name"
  | nestedNonNull => "NON_NULL directly wraps another NON_NULL"
  | invalidName name => s!"\"{name}\" is not a valid type name"
  | doubledMark => "non-null marker applied twice"

namespace TypeRef

def wrap : Wrapper → TypeRef → TypeRef
  | .list => list
  | .nonNull => nonNull

/-- Builds a reference from its wrappers, outermost first. -/
def ofWrappers (wrappers : List Wrapper) (name : String) : TypeRef :=
  wrappers.foldr wrap (named name)

/-- The wrappers of a reference, outermost first. -/
def wrappers : TypeRef → List Wrapper
  | named _ => []
  | list t => .list :: t.wrappers
  | nonNull t => .nonNull :: t.wrappers

/-- The name inside all wrappers. -/
def baseName : TypeRef → String
  | named name => name
  | list t => t.baseName
  | nonNull t => t.baseName

def isNonNull : TypeRef → Bool
  | nonNull _ => true
  | _ => false

/-- Adds a wrapper, unless a non-null one would stand right inside another. -/
def wrap? (fault : RefFault) (w : Wrapper) (t : TypeRef) : Except RefFault TypeRef :=
  if w = .nonNull ∧ t.isNonNull then .error fault else .ok (wrap w t)

/-- The text of a reference in front of `rest`: brackets around lists, a mark after non-null
types. -/
def textBefore (rest : List Char) : TypeRef → List Char
  | named name => name.toList ++ rest
  | list t => '[' :: textBefore (']' :: rest) t
  | nonNull t => textBefore ('!' :: rest) t

def text (t : TypeRef) : String :=
  String.ofList (t.textBefore [])

end TypeRef

end SchemaHistory
