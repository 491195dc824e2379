import SchemaHistory.Introspection.Document
import SchemaHistory.Model.Basic

namespace SchemaHistory

/-- The first name that has occurred before. -/
def firstRepeated? (seen : List String) : List String → Option String
  | [] => none
  | name :: names =>
    if seen.contains name then some name else firstRepeated? (name :: seen) names

/-- Refuses members of one owner that share a name. -/
def checkDistinct (owner : String) (names : List String) : Except Failure Unit :=
  match firstRepeated? [] names with
  | some name => .error (.duplicateDefinition s!"{owner}.{name}")
  | none => .ok ()

def Argument.build (owner : String) (raw : Introspection.InputValue) :
    Except Failure Argument := do
  let type ← raw.type.chain.resolveAt s!"{owner}.{raw.name}"
  return ⟨raw.name, raw.description.value?, type, raw.defaultValue.value?⟩

def Field.build (owner : String) (raw : Introspection.Field) : Except Failure Field := do
  let location := s!"{owner}.{raw.name}"
  let args ← raw.args.items.mapM (Argument.build location)
  checkDistinct location (args.map Argument.name)
  let type ← raw.type.chain.resolveAt location
  return ⟨raw.name, raw.description.value?, type, args,
    raw.isDeprecated.value?.getD false, raw.deprecationReason.value?⟩

def EnumValue.build (raw : Introspection.EnumValue) : EnumValue :=
  ⟨raw.name, raw.description.value?, raw.isDeprecated.value?.getD false,
    raw.deprecationReason.value?⟩

namespace TypeDef

def buildFields (raw : Introspection.TypeEntry) : Except Failure (List Field) := do
  let fields ← raw.fields.items.mapM (Field.build raw.name)
  checkDistinct raw.name (fields.map Field.name)
  return fields

def buildBody (raw : Introspection.TypeEntry) : TypeKind → Except Failure TypeBody
  | .object => do return .object raw.interfaces.items (← buildFields raw)
  | .interface => do return .interface (← buildFields raw)
  | .inputObject => do
    let fields ← raw.inputFields.items.mapM (Argument.build raw.name)
    checkDistinct raw.name (fields.map Argument.name)
    return .inputObject fields
  | .enum => do
    let values := raw.enumValues.items.map EnumValue.build
    checkDistinct raw.name (values.map EnumValue.name)
    return .enum values
  | .union => .ok (.union raw.possibleTypes.items)
  | .scalar => .ok .scalar

/-- The definition that an entry of a document stands for. Lists that the kind does not use are not
looked at. -/
def build (raw : Introspection.TypeEntry) : Except Failure TypeDef :=
  match TypeKind.ofText? raw.kind with
  | none => .error (.unknownTypeKind raw.name raw.kind)
  | some kind => do return ⟨raw.name, raw.description.value?, ← buildBody raw kind⟩

/-- Names that start like this belong to introspection itself. -/
def isReserved (name : String) : Bool :=
  "__".toList.isPrefixOf name.toList

/-- Builds the entries that are not reserved, in order. `done` holds the definitions so far, last
one first. -/
def buildAll (done : List TypeDef) : List Introspection.TypeEntry → Except Failure (List TypeDef)
  | [] => .ok done.reverse
  | raw :: raws =>
    if isReserved raw.name then buildAll done raws
    else if done.any fun t => t.name = raw.name then .error (.duplicateDefinition raw.name)
    else do buildAll ((← build raw) :: done) raws

end TypeDef

namespace Model

/-- A root type has to be defined, as an object type. -/
def checkRoot (types : List TypeDef) (operation : String) : Option String → Except Failure Unit
  | none => .ok ()
  | some name =>
    match types.find? fun t => t.name = name with
    | none => .error (.invalidRootType operation name "is not defined in the schema")
    | some t =>
      if t.kind = .object then .ok ()
      else .error (.invalidRootType operation name
        s!"must be an OBJECT type (found {t.kind.text})")

def rootName (root : Slot Introspection.Root) : Option String :=
  root.value?.bind fun r => r.name.value?

/-- Builds the model of a schema that has passed its checks. -/
def ofSchema (s : Introspection.Schema) : Except Failure Model :=
  match rootName s.queryType with
  | none | some "" => .error .missingQueryRoot
  | some query => do
    let types ← TypeDef.buildAll [] s.types
    let model : Model := ⟨types, query, rootName s.mutationType, rootName s.subscriptionType⟩
    checkRoot types "query" query
    checkRoot types "mutation" model.mutation
    checkRoot types "subscription" model.subscription
    return model

def ofDocument (document : Json) : Except Failure Model := do
  ofSchema (← Introspection.parse document)

end Model

end SchemaHistory
