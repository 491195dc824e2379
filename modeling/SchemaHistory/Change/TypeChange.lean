import SchemaHistory.Scalar
import SchemaHistory.TypeRef.Basic

namespace SchemaHistory

/-- What a change of type is judged by. -/
inductive Policy where
  /-- The named types alone. -/
  | baseName
  /-- The named types and their wrappers. -/
  | structural
deriving DecidableEq

namespace Policy

def all : List Policy :=
  [baseName, structural]

def text : Policy → String
  | baseName => "base-name"
  | structural => "structural"

def ofText? (text : String) : Option Policy :=
  all.find? fun p => p.text = text

end Policy

/-- Whether clients read the values of a member or write them. -/
inductive Position where
  | output
  | input
deriving DecidableEq

namespace TypeRef

/-- A built-in scalar may stand for itself; no other name may stand for any. -/
def interchangeable (before after : String) : Bool :=
  Scalar.isBuiltIn before && before = after

/-- Walks both types inward. Values that clients read may gain a non-null mark and values that they
write may lose one. Lists have to stand at the same depths, around the same name. -/
def replaceable (position : Position) : TypeRef → TypeRef → Bool
  | nonNull a, nonNull b => replaceable position a b
  | nonNull a, b => position = .input && replaceable position a b
  | a, nonNull b => position = .output && replaceable position a b
  | list a, list b => replaceable position a b
  | named m, named n => m = n
  | _, _ => false
termination_by a b => sizeOf a + sizeOf b

/-- Whether clients break when a member gets another type. -/
def isBreakingChange (policy : Policy) (position : Position) (before after : TypeRef) : Bool :=
  match policy with
  | .baseName => !interchangeable before.baseName after.baseName
  | .structural => !replaceable position before after

end TypeRef

end SchemaHistory
