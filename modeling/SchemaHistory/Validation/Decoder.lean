import SchemaHistory.Validation.Issue

namespace SchemaHistory

/-- A member that may be missing or null. -/
inductive Slot (α : Type) where
  | absent
  | null
  | filled (value : α)

namespace Slot

def value? {α : Type} : Slot α → Option α
  | filled value => some value
  | _ => none

/-- The items of an optional list. -/
def items {α : Type} : Slot (List α) → List α
  | filled items => items
  | _ => []

/-- Writes a member, or nothing where there was none. -/
def toMember {α : Type} (name : String) (toJson : α → Json) : Slot α → List (String × Json)
  | absent => []
  | null => [(name, .null)]
  | filled value => [(name, toJson value)]

end Slot

namespace Validation

/-- A value that passed its checks, or everything that is wrong with it, in order. -/
inductive Checked (α : Type) where
  | accepted (value : α)
  | refused (issues : List Issue)

namespace Checked

/-- Applies a checked function to a checked value. The issues of both are kept. -/
def seq {α β : Type} : Checked (α → β) → Checked α → Checked β
  | accepted f, accepted a => accepted (f a)
  | accepted _, refused issues => refused issues
  | refused issues, accepted _ => refused issues
  | refused issues, refused issues' => refused (issues ++ issues')

instance : Applicative Checked where
  pure := accepted
  seq f a := f.seq (a ())

/-- Moves the issues of an inner value to their place in the outer one. -/
def under {α : Type} (step : Step) : Checked α → Checked α
  | accepted value => accepted value
  | refused issues => refused (issues.map fun i => { i with path := step :: i.path })

def refuse {α : Type} (problem : Problem) : Checked α :=
  refused [⟨[], problem⟩]

end Checked

/-- A check on a value that may be missing. -/
abbrev Decoder (α : Type) := Option Json → Checked α

/-- Complains about a value of another type than the one expected. -/
def mismatch {α : Type} (expected : String) : Decoder α
  | none => .refuse (.missing expected)
  | some v => .refuse (.wrongType expected v.typeName)

def text : Decoder String
  | some (.string s) => .accepted s
  | other => mismatch "string" other

def flag : Decoder Bool
  | some (.bool b) => .accepted b
  | other => mismatch "boolean" other

def nullable {α : Type} (decode : Decoder α) : Decoder (Slot α)
  | none => .accepted .absent
  | some .null => .accepted .null
  | some v => .filled <$> decode (some v)

def itemsFrom {α : Type} (decode : Decoder α) (n : Nat) : List Json → Checked (List α)
  | [] => .accepted []
  | v :: vs => List.cons <$> (decode (some v)).under (.index n) <*> itemsFrom decode (n + 1) vs

def listOf {α : Type} (decode : Decoder α) : Decoder (List α)
  | some (.array items) => itemsFrom decode 0 items
  | other => mismatch "array" other

def objectOf {α : Type} (decode : List (String × Json) → Checked α) : Decoder α
  | some (.object members) => decode members
  | other => mismatch "object" other

def member {α : Type} (members : List (String × Json)) (name : String) (decode : Decoder α) :
    Checked α :=
  (decode (members.lookup name)).under (.key name)

end Validation

end SchemaHistory
