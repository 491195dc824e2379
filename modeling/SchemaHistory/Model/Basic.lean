import SchemaHistory.TypeRef.Basic

namespace SchemaHistory

/-- An argument of a field, or a field of an input object. The default value is the text that the
document had. -/
structure Argument where
  name : String
  description : Option String
  type : TypeRef
  defaultValue : Option String
deriving DecidableEq

structure Field where
  name : String
  description : Option String
  type : TypeRef
  args : List Argument
  isDeprecated : Bool
  deprecationReason : Option String
deriving DecidableEq

structure EnumValue where
  name : String
  description : Option String
  isDeprecated : Bool
  deprecationReason : Option String
deriving DecidableEq

inductive TypeKind where
  | object
  | inputObject
  | interface
  | enum
  | union
  | scalar
deriving DecidableEq

namespace TypeKind

def all : List TypeKind :=
  [object, inputObject, interface, enum, union, scalar]

def text : TypeKind → String
  | object => "OBJECT"
  | inputObject => "INPUT_OBJECT"
  | interface => "INTERFACE"
  | enum => "ENUM"
  | union => "UNION"
  | scalar => "SCALAR"

def ofText? (text : String) : Option TypeKind :=
  all.find? fun kind => kind.text = text

end TypeKind

/-- What a type consists of. -/
inductive TypeBody where
  | object (interfaces : List String) (fields : List Field)
  | inputObject (fields : List Argument)
  | interface (fields : List Field)
  | enum (values : List EnumValue)
  | union (members : List String)
  | scalar
deriving DecidableEq

def TypeBody.kind : TypeBody → TypeKind
  | object _ _ => .object
  | inputObject _ => .inputObject
  | interface _ => .interface
  | enum _ => .enum
  | union _ => .union
  | scalar => .scalar

structure TypeDef where
  name : String
  description : Option String
  body : TypeBody
deriving DecidableEq

def TypeDef.kind (t : TypeDef) : TypeKind :=
  t.body.kind

/-- A schema: its types in the order of the document, and the names of its root types. -/
structure Model where
  types : List TypeDef
  query : String
  mutation : Option String
  subscription : Option String
deriving DecidableEq

namespace Model

def find? (m : Model) (name : String) : Option TypeDef :=
  m.types.find? fun t => t.name = name

def names (m : Model) : List String :=
  m.types.map TypeDef.name

def defines (m : Model) (name : String) : Bool :=
  m.names.contains name

end Model

end SchemaHistory
