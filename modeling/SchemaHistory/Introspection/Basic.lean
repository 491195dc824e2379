import SchemaHistory.TypeRef.Chain
import SchemaHistory.Validation.Decoder

namespace SchemaHistory.Introspection

/-- A type reference, kept word for word beside the chain that it spells. -/
structure RawRef where
  json : Json
  chain : RefChain
  spells : RefChain.ofJson? json = some chain

def RawRef.ofJson? (json : Json) : Option RawRef :=
  match h : RefChain.ofJson? json with
  | some chain => some ⟨json, chain, h⟩
  | none => none

structure InputValue where
  name : String
  description : Slot String
  type : RawRef
  defaultValue : Slot String

structure Field where
  name : String
  description : Slot String
  args : Slot (List InputValue)
  type : RawRef
  isDeprecated : Slot Bool
  deprecationReason : Slot String

structure EnumValue where
  name : String
  description : Slot String
  isDeprecated : Slot Bool
  deprecationReason : Slot String

/-- One entry of the list of types. Interfaces and members of unions are given by name. -/
structure TypeEntry where
  kind : String
  name : String
  description : Slot String
  fields : Slot (List Field)
  inputFields : Slot (List InputValue)
  interfaces : Slot (List String)
  enumValues : Slot (List EnumValue)
  possibleTypes : Slot (List String)

structure Root where
  name : Slot String

/-- The schema part of an introspection document. -/
structure Schema where
  queryType : Slot Root
  mutationType : Slot Root
  subscriptionType : Slot Root
  types : List TypeEntry

def InputValue.toJson (v : InputValue) : Json :=
  .object (("name", .string v.name)
    :: v.description.toMember "description" .string
    ++ ("type", v.type.json)
    :: v.defaultValue.toMember "defaultValue" .string)

def inputValuesJson (vs : List InputValue) : Json :=
  .array (vs.map InputValue.toJson)

def Field.toJson (f : Field) : Json :=
  .object (("name", .string f.name)
    :: f.description.toMember "description" .string
    ++ f.args.toMember "args" inputValuesJson
    ++ ("type", f.type.json)
    :: f.isDeprecated.toMember "isDeprecated" .bool
    ++ f.deprecationReason.toMember "deprecationReason" .string)

def EnumValue.toJson (v : EnumValue) : Json :=
  .object (("name", .string v.name)
    :: v.description.toMember "description" .string
    ++ v.isDeprecated.toMember "isDeprecated" .bool
    ++ v.deprecationReason.toMember "deprecationReason" .string)

def namesJson (names : List String) : Json :=
  .array (names.map fun name => .object [("name", .string name)])

def TypeEntry.toJson (t : TypeEntry) : Json :=
  .object (("kind", .string t.kind)
    :: ("name", .string t.name)
    :: t.description.toMember "description" .string
    ++ t.fields.toMember "fields" (fun fs => .array (fs.map Field.toJson))
    ++ t.inputFields.toMember "inputFields" inputValuesJson
    ++ t.interfaces.toMember "interfaces" namesJson
    ++ t.enumValues.toMember "enumValues" (fun vs => .array (vs.map EnumValue.toJson))
    ++ t.possibleTypes.toMember "possibleTypes" namesJson)

def Root.toJson (r : Root) : Json :=
  .object (r.name.toMember "name" .string)

def Schema.toJson (s : Schema) : Json :=
  .object (s.queryType.toMember "queryType" Root.toJson
    ++ s.mutationType.toMember "mutationType" Root.toJson
    ++ s.subscriptionType.toMember "subscriptionType" Root.toJson
    ++ [("types", .array (s.types.map TypeEntry.toJson))])

end SchemaHistory.Introspection
