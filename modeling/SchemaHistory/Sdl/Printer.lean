import SchemaHistory.Model.Basic
import SchemaHistory.Scalar
import SchemaHistory.Sdl.Description

namespace SchemaHistory

/-- What schema text shows beside the definitions. -/
structure Sdl.Options where
  descriptions : Bool
  deprecations : Bool
deriving DecidableEq

namespace Sdl

def Options.bare : Options := ⟨false, false⟩

def margin : String := "  "

/-- The reason that readers assume when none is written. -/
def assumedReason : String := "No longer supported"

def deprecationText (options : Options) (isDeprecated : Bool) (reason : Option String) : String :=
  if options.deprecations && isDeprecated then
    match reason with
    | none => " @deprecated"
    | some reason =>
      if reason = assumedReason then " @deprecated"
      else s!" @deprecated(reason: {Json.quote reason})"
  else ""

def block (header : String) (members : List String) : String :=
  match members with
  | [] => header ++ " \x7b\n\x7d"
  | _ => header ++ " \x7b\n" ++ String.intercalate "\n" members ++ "\n\x7d"

end Sdl

open Sdl

def Argument.sdl (a : Argument) : String :=
  let head := a.name ++ ": " ++ a.type.text
  match a.defaultValue with
  | none => head
  | some value => head ++ " = " ++ value

def Field.sdl (options : Options) (f : Field) : String :=
  let args := if f.args.isEmpty then ""
    else "(" ++ String.intercalate ", " (f.args.map Argument.sdl) ++ ")"
  f.name ++ args ++ ": " ++ f.type.text
    ++ deprecationText options f.isDeprecated f.deprecationReason

namespace TypeDef

def fieldLine (options : Options) (f : Field) : String :=
  descriptionText options.descriptions margin f.description ++ margin ++ f.sdl options

def inputLine (options : Options) (a : Argument) : String :=
  descriptionText options.descriptions margin a.description ++ margin ++ a.sdl

def valueLine (options : Options) (v : EnumValue) : String :=
  descriptionText options.descriptions margin v.description ++ margin ++ v.name
    ++ deprecationText options v.isDeprecated v.deprecationReason

/-- A definition without its own description. -/
def bodySdl (options : Options) (t : TypeDef) : String :=
  match t.body with
  | .object interfaces fields =>
    let header := "type " ++ t.name
    let header := if interfaces.isEmpty then header
      else header ++ " implements " ++ String.intercalate " & " interfaces
    block header (fields.map (fieldLine options))
  | .interface fields => block ("interface " ++ t.name) (fields.map (fieldLine options))
  | .inputObject fields => block ("input " ++ t.name) (fields.map (inputLine options))
  | .enum values => block ("enum " ++ t.name) (values.map (valueLine options))
  | .union members =>
    if members.isEmpty then "union " ++ t.name
    else "union " ++ t.name ++ " = " ++ String.intercalate " | " members
  | .scalar => "scalar " ++ t.name

/-- One definition as schema text, without a line end after it. -/
def sdl (options : Options) (t : TypeDef) : String :=
  descriptionText options.descriptions "" t.description ++ t.bodySdl options

end TypeDef

namespace Sdl

/-- Sections stand apart by an empty line, and a line end follows the last. -/
def sections (texts : List String) : String :=
  String.intercalate "\n\n" texts ++ "\n"

end Sdl

namespace Model

/-- The operations that have a root type: operation, root type, and the name that a reader assumes
for it. -/
def roots (m : Model) : List (String × String × String) :=
  ("query", m.query, "Query")
    :: (m.mutation.toList.map ("mutation", ·, "Mutation")
      ++ m.subscription.toList.map ("subscription", ·, "Subscription"))

/-- Names the root types, if one of them has an unusual name. -/
def schemaBlock (m : Model) : List String :=
  if m.roots.any fun (_, name, usual) => name != usual then
    [block "schema" (m.roots.map fun (operation, name, _) =>
      margin ++ operation ++ ": " ++ name)]
  else []

/-- Scalars that every schema has are not written. -/
def isWritten (t : TypeDef) : Bool :=
  !(t.kind = .scalar && Scalar.isBuiltIn t.name)

/-- The whole schema as text. -/
def sdl (options : Options) (m : Model) : String :=
  sections (m.schemaBlock ++ (m.types.filter isWritten).map (TypeDef.sdl options))

/-- The given types as text, those that are defined. -/
def sdlOf (options : Options) (m : Model) (names : List String) : String :=
  sections ((names.filterMap m.find?).map (TypeDef.sdl options))

end Model

end SchemaHistory
