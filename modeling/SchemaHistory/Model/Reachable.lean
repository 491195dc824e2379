import SchemaHistory.Model.Basic
import SchemaHistory.Scalar

namespace SchemaHistory

def Field.references (f : Field) : List String :=
  f.type.baseName :: f.args.map fun a => a.type.baseName

/-- The names that a definition mentions, in the order in which it is written. -/
def TypeDef.references (t : TypeDef) : List String :=
  match t.body with
  | .object interfaces fields => interfaces ++ fields.flatMap Field.references
  | .interface fields => fields.flatMap Field.references
  | .inputObject fields => fields.map fun f => f.type.baseName
  | .union members => members
  | .enum _ => []
  | .scalar => []

namespace Model

/-- Takes the names that are still unseen, each at its first place, and returns what stays
unseen. -/
def discover (unseen : List String) : List String → List String × List String
  | [] => ([], unseen)
  | name :: names =>
    if name ∈ unseen then
      let (found, left) := discover (unseen.erase name) names
      (name :: found, left)
    else discover unseen names

theorem length_discover (unseen names : List String) :
    (discover unseen names).1.length + (discover unseen names).2.length = unseen.length := by
  induction names generalizing unseen with
  | nil => simp [discover]
  | cons name names ih =>
    unfold discover
    split
    · rename_i h
      have h1 := ih (unseen.erase name)
      have h2 := List.length_erase_of_mem h
      have h3 := List.length_pos_of_mem h
      simp only [List.length_cons]
      omega
    · exact ih unseen

/-- Visits the names of a queue and, after them, the unseen names that they lead to. -/
def walk (next : String → List String) (unseen : List String) : List String → List String
  | [] => []
  | name :: queue =>
    let step := discover unseen (next name)
    name :: walk next step.2 (queue ++ step.1)
termination_by queue => unseen.length + queue.length
decreasing_by
  have := length_discover unseen (next name)
  simp only [List.length_append, List.length_cons]
  omega

def next (m : Model) (name : String) : List String :=
  (m.find? name).elim [] TypeDef.references

/-- The types that can be reached from a type, that one first and the nearer before the farther.
Leaves are left out, and names without a definition. -/
def reachable (m : Model) (custom : List String) (start : String) : List String :=
  if m.defines start then
    walk m.next (m.names.filter fun name => name != start && !Scalar.isLeaf custom name) [start]
  else []

end Model

end SchemaHistory
