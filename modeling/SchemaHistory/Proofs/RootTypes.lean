import SchemaHistory.Proofs.TextReading

namespace SchemaHistory

namespace Sdl

/-- The root type of an operation: the one that the section for root types names. Where there is no
such section, it is the object type that has the usual name. -/
def Reading.root (r : Reading) (operation usual : String) : Option String :=
  match r.operations with
  | some roots => roots.lookup operation
  | none => if (TypeKind.object.keyword, usual) ∈ r.definitions then some usual else none

/-- The root types of operations. -/
structure Roots where
  query : Option String
  mutation : Option String
  subscription : Option String
deriving DecidableEq

/-- What a reader of schema text takes for the root types. -/
def readRoots (text : String) : Option Roots :=
  (tokens? text).bind fun ts =>
    let r := Reading.run ⟨.top, [], none⟩ ts
    if r.place = .top then
      some ⟨r.root "query" "Query", r.root "mutation" "Mutation",
        r.root "subscription" "Subscription"⟩
    else none

end Sdl

open Sdl

namespace Model

open Reading

variable {s : Introspection.Schema} {m : Model} {ds : List (String × String)}
  {ops : Option (List (String × String))}

/-- Whether the root types are named in a section of their own. -/
def namesRoots (m : Model) : Bool :=
  m.roots.any fun (_, name, usual) => name != usual

theorem reaches_types {types : List TypeDef}
    (h : ∀ t ∈ types, t.Named ∧ ∀ value ∈ t.defaults, Enclosed value) (options : Options) :
    Reaches ⟨.top, ds, ops⟩ (String.intercalate "\n\n" (types.map (TypeDef.sdl options)))
      ⟨.top, ds ++ types.map TypeDef.found, ops⟩ :=
  reaches_joined (fun ds => ⟨.top, ds, ops⟩) (by decide : IsSeparator "\n\n") (fun _ => rfl)
    (fun t ht _ => TypeDef.reaches_sdl (h t ht).1 (h t ht).2 options) ds

/-- A line of the section that names the root types. -/
theorem reaches_root {operation name : String} {es : List (String × String)}
    (ho : IsName operation) (hn : IsName name) :
    Reaches ⟨.operations, ds, some es⟩ (margin ++ operation ++ ": " ++ name)
      ⟨.operations, ds, some (es ++ [(operation, name)])⟩ := by
  have hop : Reaches ⟨.operations, ds, some es⟩ ("" ++ margin ++ operation)
      ⟨.operation operation, ds, some es⟩ :=
    (reaches_end _).join (by decide) rfl (reaches_name ho)
  rw [String.empty_append] at hop
  exact hop.join (by decide) rfl (reaches_name hn)

/-- The section that names the root types. -/
theorem reaches_roots (h : ∀ root ∈ m.roots, IsName root.1 ∧ IsName root.2.1) :
    Reaches ⟨.top, ds, none⟩ (block "schema" (m.roots.map fun (operation, name, _) =>
        margin ++ operation ++ ": " ++ name))
      ⟨.top, ds, some (m.roots.map fun (operation, name, _) => (operation, name))⟩ := by
  have hhead : Reaches ⟨.top, ds, none⟩ "schema" ⟨.schema, ds, none⟩ :=
    reaches_name (by decide)
  have hlines := reaches_joined (fun es => ⟨.operations, ds, some es⟩)
    (by decide : IsSeparator "\n") (fun _ => rfl)
    (fun root hr _ => reaches_root (h root hr).1 (h root hr).2) []
  have hopen := hhead.join (by decide : IsSeparator " \x7b\n") rfl hlines
  have hclose := hopen.join (by decide : IsSeparator "\n\x7d") rfl (reaches_end _)
  rw [String.append_empty] at hclose
  exact hclose

/-- What a reader finds in the text of a model. -/
theorem reaches_model (h : ofSchema s = .ok m)
    (hm : ∀ t ∈ m.types, t.Named ∧ ∀ value ∈ t.defaults, Enclosed value) (options : Options) :
    Reaches ⟨.top, [], none⟩ (m.sdl options)
      ⟨.top, (m.types.filter isWritten).map TypeDef.found,
        if m.namesRoots then
          some (m.roots.map fun (operation, name, _) => (operation, name))
        else none⟩ := by
  have hwritten : ∀ t ∈ m.types.filter isWritten, t.Named ∧ ∀ value ∈ t.defaults, Enclosed value :=
    fun t ht => hm t (List.mem_of_mem_filter ht)
  have htexts : (m.types.filter isWritten).map (TypeDef.sdl options) ≠ [] := by
    obtain ⟨t, ht, _⟩ := root_written h
    exact List.ne_nil_of_mem (List.mem_map_of_mem ht)
  have hline {text : String} {r t : Reading} (hr : r.Reaches text t) :
      r.Reaches (text ++ "\n") t := by
    have hend : r.Reaches (text ++ "\n" ++ "") t := hr.join (by decide) rfl (reaches_end t)
    rwa [String.append_empty] at hend
  cases hr : m.namesRoots with
  | true =>
    have hroots := @reaches_roots m [] (root_names h fun t ht => (hm t ht).1)
    have hall := hroots.join (by decide : IsSeparator "\n\n") rfl (reaches_types hwritten options)
    rw [sdl, Sdl.sections, schemaBlock, ← namesRoots, hr, if_pos rfl,
      String.intercalate_append_of_ne_nil (List.cons_ne_nil _ _) htexts,
      String.intercalate_singleton]
    exact hline hall
  | false =>
    rw [sdl, Sdl.sections, schemaBlock, ← namesRoots, hr, if_neg Bool.false_ne_true,
      List.nil_append]
    exact hline (reaches_types hwritten options)

/-- Whether an object type has a name. -/
def HasObject (m : Model) (name : String) : Prop :=
  ∃ t ∈ m.types, t.name = name ∧ t.kind = .object

instance (m : Model) (name : String) : Decidable (m.HasObject name) :=
  inferInstanceAs (Decidable (∃ t ∈ m.types, _))

theorem found_object {name : String} :
    (TypeKind.object.keyword, name) ∈ (m.types.filter isWritten).map TypeDef.found
      ↔ m.HasObject name := by
  constructor
  · intro hm
    obtain ⟨t, ht, he⟩ := List.mem_map.mp hm
    obtain ⟨hk, hn⟩ := Prod.mk.inj he
    exact ⟨t, List.mem_of_mem_filter ht, hn, TypeKind.keyword_injective hk⟩
  · rintro ⟨t, ht, rfl, hk⟩
    refine List.mem_map.mpr ⟨t, List.mem_filter.mpr ⟨ht, ?_⟩, ?_⟩
    · rw [isWritten, hk]
      rfl
    · rw [TypeDef.found, hk]

/-- The section for root types gives each operation its root type. -/
theorem named_roots (m : Model) :
    let roots := m.roots.map fun (operation, name, _) => (operation, name)
    roots.lookup "query" = some m.query ∧ roots.lookup "mutation" = m.mutation ∧
      roots.lookup "subscription" = m.subscription := by
  obtain ⟨types, query, mutation, subscription⟩ := m
  refine ⟨rfl, ?_, ?_⟩
  · cases mutation <;> cases subscription <;> rfl
  · cases mutation <;> cases subscription <;> rfl

/-- Without a section for root types, an operation has its root type unless it has none and an
object type has the usual name. -/
theorem usual_root {usual : String} {name : Option String}
    (h : ∀ n ∈ name, n = usual ∧ m.HasObject n) :
    (if m.HasObject usual then some usual else none) = name ↔
      (name = none → ¬m.HasObject usual) := by
  cases name with
  | none => simp
  | some n =>
    obtain ⟨rfl, hobject⟩ := h n rfl
    simp [hobject]

theorem names_roots_iff : m.namesRoots = true ↔ ∃ root ∈ m.roots, root.2.1 ≠ root.2.2 := by
  simp [namesRoots, List.any_eq_true]

/-- The text of a model, whatever it shows beside the definitions, gives the operations their root
types just when one of these has an unusual name, so that the text names them, or no object type has
the usual name of a root type that is not there. -/
theorem roots_survive (h : ofSchema s = .ok m)
    (hm : ∀ t ∈ m.types, t.Named ∧ ∀ value ∈ t.defaults, Enclosed value) (options : Options) :
    ∃ roots, readRoots (m.sdl options) = some roots ∧
      (roots = ⟨m.query, m.mutation, m.subscription⟩ ↔
        (∃ root ∈ m.roots, root.2.1 ≠ root.2.2) ∨
          (m.mutation = none → ¬m.HasObject "Mutation") ∧
          (m.subscription = none → ¬m.HasObject "Subscription")) := by
  obtain ⟨ts, hts, hrun⟩ := reaches_model h hm options
  refine ⟨_, by rw [readRoots, hts, Option.bind_some, hrun, if_pos rfl], ?_⟩
  rw [← names_roots_iff]
  cases hn : m.namesRoots with
  | true =>
    obtain ⟨hquery, hmutation, hsubscription⟩ := m.named_roots
    simp [Reading.root, hquery, hmutation, hsubscription]
  | false =>
    have husual {operation name usual : String} (hr : (operation, name, usual) ∈ m.roots) :
        name = usual ∧ m.HasObject name := by
      refine ⟨?_, roots_defined h hr⟩
      by_contra hne
      exact Bool.false_ne_true (hn.symm.trans (names_roots_iff.mpr ⟨_, hr, hne⟩))
    have hquery : ∀ n ∈ some m.query, n = "Query" ∧ m.HasObject n := by
      rintro n ⟨⟩
      exact husual List.mem_cons_self
    have hmutation : ∀ n ∈ m.mutation, n = "Mutation" ∧ m.HasObject n := fun n hn =>
      husual (List.mem_cons_of_mem _ (List.mem_append_left _
        (List.mem_map_of_mem (Option.mem_toList.mpr hn))))
    have hsubscription : ∀ n ∈ m.subscription, n = "Subscription" ∧ m.HasObject n := fun n hn =>
      husual (List.mem_cons_of_mem _ (List.mem_append_right _
        (List.mem_map_of_mem (Option.mem_toList.mpr hn))))
    simp only [Reading.root, Bool.false_eq_true, if_false, found_object, false_or]
    rw [Roots.mk.injEq, usual_root hquery, usual_root hmutation, usual_root hsubscription]
    simp

/-- A query type with one field, whose argument has a default, and other types. -/
def orders (query default : String) (others : List Introspection.TypeEntry) :
    Introspection.Schema :=
  let number : Introspection.RawRef := .ofChain (.last "SCALAR" (some "Int"))
  .ofTypes query (⟨"OBJECT", query, .filled "Reads \"all\"\n\"\"\" of it \x7b", .filled
    [⟨"size", .absent, .filled [⟨"of", .absent, number, .filled default⟩], number, .filled true,
      .filled "Use \x7b"⟩], .absent, .absent, .absent, .absent⟩ :: others)

/-- An object type with a usual name that is no root type is told apart, since the query type has an
unusual one. -/
theorem roots_survive_orders : ∃ m,
    ofSchema (orders "Root" "7" [.object "Mutation" [("noop", .last "SCALAR" (some "Int"))]])
      = .ok m ∧
    readRoots (m.sdl ⟨true, true⟩) = some ⟨some "Root", none, none⟩ := by
  refine ⟨_, rfl, ?_⟩
  obtain ⟨roots, hroots, hiff⟩ := roots_survive (s := orders "Root" "7"
    [.object "Mutation" [("noop", .last "SCALAR" (some "Int"))]]) rfl (by decide) ⟨true, true⟩
  rw [hroots, hiff.mpr (by decide)]
  rfl

/-- A reader of the text of a built model takes a type for the root type of mutations, and there is
none. -/
def Misread (s : Introspection.Schema) : Prop :=
  ∃ m, ofSchema s = .ok m ∧ m.mutation = none ∧
    readRoots (m.sdl .bare) = some ⟨some "Query", some "Mutation", none⟩

/-- An object type with the usual name is taken for the root type. The same happens where a name or
a default value holds the text of such a type. -/
theorem roots_misread :
    Misread (orders "Query" "7" [.object "Mutation" [("noop", .last "SCALAR" (some "Int"))]]) ∧
    Misread (orders "Query" "7" [.object "Other \x7b\x7d type Mutation" []]) ∧
    Misread (orders "Query" "7): Int \x7d type Mutation \x7b noop(of: Int = 7" []) := by
  refine ⟨⟨_, rfl, rfl, ?_⟩, ⟨_, rfl, rfl, ?_⟩, ⟨_, rfl, rfl, ?_⟩⟩
  · decide +kernel
  · decide +kernel
  · decide +kernel

end Model

end SchemaHistory
