import SchemaHistory.Binary64.Basic

namespace SchemaHistory

/-- A JSON value. The members of an object keep their order, and no name occurs twice in an object
that was read from text. Texts, those of names included, are sequences of Unicode scalar values: a
surrogate without its partner is in none of them. -/
inductive Json where
  | null
  | bool (value : Bool)
  | number (value : Binary64)
  | string (text : String)
  | array (items : List Json)
  | object (members : List (String × Json))

namespace Json

instance : Inhabited Json := ⟨null⟩

/-- Sets a member. A name that is there already keeps its place. -/
def put (name : String) (value : Json) : List (String × Json) → List (String × Json)
  | [] => [(name, value)]
  | (n, v) :: members =>
    if n = name then (name, value) :: members else (n, v) :: put name value members

def get? (name : String) : Json → Option Json
  | object members => members.lookup name
  | _ => none

def natural (n : Nat) : Json :=
  number (Binary64.ofNat n)

def strings (texts : List String) : Json :=
  array (texts.map string)

/-- A member that is left out when there is no value. -/
def member? (name : String) (value : Option Json) : List (String × Json) :=
  value.toList.map (name, ·)

/-- The name of a value's type, as reports on unexpected values use it. -/
def typeName : Json → String
  | null => "null"
  | bool _ => "boolean"
  | number _ => "number"
  | string _ => "string"
  | array _ => "array"
  | object _ => "object"

end Json

end SchemaHistory
