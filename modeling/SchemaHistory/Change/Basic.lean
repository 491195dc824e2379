import SchemaHistory.Json.Basic

namespace SchemaHistory

inductive Severity where
  | minor
  | major
  | critical
deriving DecidableEq

namespace Severity

def all : List Severity :=
  [minor, major, critical]

def text : Severity → String
  | minor => "minor"
  | major => "major"
  | critical => "critical"

def ofText? (text : String) : Option Severity :=
  all.find? fun s => s.text = text

def rank : Severity → Nat
  | minor => 0
  | major => 1
  | critical => 2

instance : LE Severity := ⟨fun s t => s.rank ≤ t.rank⟩
instance (s t : Severity) : Decidable (s ≤ t) := inferInstanceAs (Decidable (s.rank ≤ t.rank))

end Severity

inductive ChangeKind where
  | typeAdded
  | typeRemoved
  | fieldAdded
  | fieldRemoved
  | fieldTypeChanged
  | enumValueAdded
  | enumValueRemoved
deriving DecidableEq

namespace ChangeKind

def all : List ChangeKind :=
  [typeAdded, typeRemoved, fieldAdded, fieldRemoved, fieldTypeChanged, enumValueAdded,
    enumValueRemoved]

def text : ChangeKind → String
  | typeAdded => "type_added"
  | typeRemoved => "type_removed"
  | fieldAdded => "field_added"
  | fieldRemoved => "field_removed"
  | fieldTypeChanged => "field_type_changed"
  | enumValueAdded => "enum_value_added"
  | enumValueRemoved => "enum_value_removed"

def ofText? (text : String) : Option ChangeKind :=
  all.find? fun k => k.text = text

end ChangeKind

/-- One difference between two versions of a schema, with advice on it. -/
structure Change where
  kind : ChangeKind
  severity : Severity
  isBreaking : Bool
  typeName : String
  /-- The field or enum value that changed, unless the whole type did. -/
  memberName : Option String
  description : String
  impact : Option String
  recommendation : Option String
  /-- The type of a field before and after, if that is what changed. -/
  before : Option String
  after : Option String
deriving DecidableEq

/-- Where the member names of a change stand in its JSON. -/
inductive Change.Layout where
  /-- As a comparison reports its changes: the name of a member follows the description, except in
  a change of type. -/
  | detected
  /-- Before the description. -/
  | declared
deriving DecidableEq

namespace Change

def toJson (layout : Layout) (c : Change) : Json :=
  let text (name : String) (value : Option String) := Json.member? name (value.map .string)
  let member := text "memberName" c.memberName
  let description := [("description", Json.string c.description)]
  let memberFirst := layout = .declared ∨ c.kind = .fieldTypeChanged
  .object ([("kind", .string c.kind.text), ("severity", .string c.severity.text),
      ("isBreaking", .bool c.isBreaking), ("typeName", .string c.typeName)]
    ++ (if memberFirst then member ++ description else description ++ member)
    ++ text "impact" c.impact ++ text "recommendation" c.recommendation
    ++ text "before" c.before ++ text "after" c.after)

/-- The changes of at least a severity. -/
def atLeast (least : Severity) (changes : List Change) : List Change :=
  changes.filter fun c => least ≤ c.severity

end Change

end SchemaHistory
