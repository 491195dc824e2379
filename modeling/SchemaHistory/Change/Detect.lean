import SchemaHistory.Change.Basic
import SchemaHistory.Change.TypeChange
import SchemaHistory.Model.Basic

namespace SchemaHistory

/-- A field or an input field, as far as comparisons look at it. -/
structure Member where
  name : String
  type : TypeRef
deriving DecidableEq

def Field.member (f : Field) : Member :=
  ⟨f.name, f.type⟩

def Argument.member (a : Argument) : Member :=
  ⟨a.name, a.type⟩

namespace Change

def typeRemoved (name : String) : Change where
  kind := .typeRemoved
  severity := .critical
  isBreaking := true
  typeName := name
  memberName := none
  description := "Type '" ++ name ++ "' was removed"
  impact := some "All queries using this type will fail"
  recommendation := some "Ensure no clients are using this type before removal"
  before := none
  after := none

def typeAdded (name : String) : Change where
  kind := .typeAdded
  severity := .minor
  isBreaking := false
  typeName := name
  memberName := none
  description := "Type '" ++ name ++ "' was added"
  impact := some "New functionality available to clients"
  recommendation := none
  before := none
  after := none

def fieldRemoved (position : Position) (owner name : String) : Change where
  kind := .fieldRemoved
  severity := .critical
  isBreaking := true
  typeName := owner
  memberName := some name
  description := "Field '" ++ name ++ "' was removed from type '" ++ owner ++ "'"
  impact := some (match position with
    | .output => "Queries selecting this field will fail"
    | .input => "Inputs providing this field will fail")
  recommendation := some "Use deprecation before removal"
  before := none
  after := none

def fieldAdded (owner name : String) : Change where
  kind := .fieldAdded
  severity := .minor
  isBreaking := false
  typeName := owner
  memberName := some name
  description := "Field '" ++ name ++ "' was added to type '" ++ owner ++ "'"
  impact := some "New data available to clients"
  recommendation := none
  before := none
  after := none

def fieldTypeChanged (isBreaking : Bool) (owner name before after : String) : Change where
  kind := .fieldTypeChanged
  severity := if isBreaking then .critical else .major
  isBreaking := isBreaking
  typeName := owner
  memberName := some name
  description := "Field '" ++ name ++ "' type changed from '" ++ before ++ "' to '" ++ after
    ++ "' in type '" ++ owner ++ "'"
  impact := some (if isBreaking then "May cause client parsing errors"
    else "Client adaptation may be needed")
  recommendation := if isBreaking then
      some ("Add a new field with the new type alongside the old one and deprecate the old "
        ++ "field")
    else none
  before := some before
  after := some after

def enumValueRemoved (owner name : String) : Change where
  kind := .enumValueRemoved
  severity := .critical
  isBreaking := true
  typeName := owner
  memberName := some name
  description := "Enum value '" ++ name ++ "' was removed from enum '" ++ owner ++ "'"
  impact := some "Queries and variables using this value will fail"
  recommendation := some "Deprecate the value before removal"
  before := none
  after := none

def enumValueAdded (owner name : String) : Change where
  kind := .enumValueAdded
  severity := .minor
  isBreaking := false
  typeName := owner
  memberName := some name
  description := "Enum value '" ++ name ++ "' was added to enum '" ++ owner ++ "'"
  impact := some "Clients handling every value of this enum may need an update"
  recommendation := none
  before := none
  after := none

/-- What became of a member that was there before. Types differ when their texts differ. -/
def ofMember? (policy : Policy) (position : Position) (owner : String) (after : List Member)
    (m : Member) : Option Change :=
  match after.find? fun n => n.name = m.name with
  | none => some (fieldRemoved position owner m.name)
  | some n =>
    if m.type.text = n.type.text then none
    else some (fieldTypeChanged (TypeRef.isBreakingChange policy position m.type n.type) owner
      m.name m.type.text n.type.text)

/-- The names in the first list that the second does not have. -/
def namesOnlyIn (names others : List String) : List String :=
  names.filter fun name => !others.contains name

/-- Changes of members that were there before, in their order, then the new members in theirs. -/
def ofMembers (policy : Policy) (position : Position) (owner : String)
    (before after : List Member) : List Change :=
  before.filterMap (ofMember? policy position owner after)
    ++ (namesOnlyIn (after.map Member.name) (before.map Member.name)).map (fieldAdded owner)

def ofEnumValues (owner : String) (before after : List EnumValue) : List Change :=
  let old := before.map EnumValue.name
  let new := after.map EnumValue.name
  (namesOnlyIn old new).map (enumValueRemoved owner)
    ++ (namesOnlyIn new old).map (enumValueAdded owner)

/-- The changes of one type. A type of another kind counts as removed and added again. Interfaces,
members of unions, arguments and defaults are not compared. -/
def ofTypes (policy : Policy) (before after : TypeDef) : List Change :=
  match before.body, after.body with
  | .object _ old, .object _ new =>
    ofMembers policy .output before.name (old.map Field.member) (new.map Field.member)
  | .interface old, .interface new =>
    ofMembers policy .output before.name (old.map Field.member) (new.map Field.member)
  | .inputObject old, .inputObject new =>
    ofMembers policy .input before.name (old.map Argument.member) (new.map Argument.member)
  | .enum old, .enum new => ofEnumValues before.name old new
  | .union _, .union _ => []
  | .scalar, .scalar => []
  | _, _ => [typeRemoved before.name, typeAdded after.name]

/-- The changes of a type that both versions define. -/
def ofShared (policy : Policy) (after : Model) (t : TypeDef) : List Change :=
  (after.find? t.name).elim [] (ofTypes policy t)

end Change

/-- Every change from one version of a schema to another: types that are gone, then the changes of
shared types, both in the old order, then new types in the new order. -/
def Model.changes (policy : Policy) (before after : Model) : List Change :=
  (Change.namesOnlyIn before.names after.names).map Change.typeRemoved
    ++ before.types.flatMap (Change.ofShared policy after)
    ++ (Change.namesOnlyIn after.names before.names).map Change.typeAdded

end SchemaHistory
