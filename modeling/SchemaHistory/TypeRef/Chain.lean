import SchemaHistory.Failure
import SchemaHistory.Json.Basic
import SchemaHistory.TypeRef.Basic

namespace SchemaHistory

/-- A type reference as introspection documents write it: entries with a kind and an optional name,
each inside the one before. -/
inductive RefChain where
  | last (kind : String) (name : Option String)
  | link (kind : String) (name : Option String) (inner : RefChain)
deriving DecidableEq

namespace RefChain

def nameOf? (members : List (String × Json)) : Option (Option String) :=
  match members.lookup "name" with
  | none | some .null => some none
  | some (.string name) => some (some name)
  | _ => none

mutual

/-- Reads the chain that a JSON value spells. Members with other names do not matter. -/
def ofJson? : Json → Option RefChain
  | .object members =>
    match members.lookup "kind", nameOf? members, inner? members with
    | some (.string kind), some name, some none => some (last kind name)
    | some (.string kind), some name, some (some inner) => some (link kind name inner)
    | _, _, _ => none
  | _ => none

/-- The chain inside an entry, if it has one. -/
def inner? : List (String × Json) → Option (Option RefChain)
  | [] => some none
  | (name, value) :: members =>
    if name = "ofType" then
      match value with
      | .null => some none
      | value => (ofJson? value).map some
    else inner? members

end

def nameJson : Option String → Json
  | some name => .string name
  | none => .null

def toJson : RefChain → Json
  | last kind name => .object [("kind", .string kind), ("name", nameJson name), ("ofType", .null)]
  | link kind name inner =>
    .object [("kind", .string kind), ("name", nameJson name), ("ofType", inner.toJson)]

def leaf (kind : String) (name : Option String) : Except RefFault TypeRef :=
  match name with
  | none | some "" => .error (.noName kind)
  | some name => .ok (.named name)

/-- The reference that a chain stands for. The first entry that is no wrapper ends it. -/
def resolve : RefChain → Except RefFault TypeRef
  | last kind name =>
    match Wrapper.ofKind? kind with
    | some w => .error (.noInnerType w)
    | none => leaf kind name
  | link kind name inner =>
    match Wrapper.ofKind? kind with
    | some w =>
      match inner.resolve with
      | .ok t => TypeRef.wrap? .nestedNonNull w t
      | .error fault => .error fault
    | none => leaf kind name

/-- The reference at a place of a document. -/
def resolveAt (location : String) (chain : RefChain) : Except Failure TypeRef :=
  chain.resolve.mapError fun fault => .malformedTypeRef location fault.message

end RefChain

/-- The chain of a reference. `kindOf` gives the kind of the named type. -/
def TypeRef.toChain (kindOf : String → String) : TypeRef → RefChain
  | named name => .last (kindOf name) (some name)
  | list t => .link Wrapper.list.kind none (t.toChain kindOf)
  | nonNull t => .link Wrapper.nonNull.kind none (t.toChain kindOf)

end SchemaHistory
