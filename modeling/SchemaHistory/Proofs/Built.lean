import Mathlib.Data.List.Nodup
import Mathlib.Data.List.Forall2
import SchemaHistory.Change.Detect
import SchemaHistory.Model.Build
import SchemaHistory.Proofs.References

namespace SchemaHistory

theorem bind_ok {ε α β : Type} {x : Except ε α} {f : α → Except ε β} {b : β} :
    (x >>= f) = .ok b ↔ ∃ a, x = .ok a ∧ f a = .ok b := by
  cases x <;> simp [bind, Except.bind]

theorem pure_ok {ε α : Type} {a b : α} : (pure a : Except ε α) = .ok b ↔ a = b := by
  simp [pure, Except.pure]

theorem mapM_ok {ε α β : Type} {f : α → Except ε β} {xs : List α} {ys : List β}
    (h : xs.mapM f = .ok ys) : List.Forall₂ (fun x y => f x = .ok y) xs ys := by
  induction xs generalizing ys with
  | nil =>
    rw [List.mapM_nil, pure_ok] at h
    exact h ▸ .nil
  | cons x xs ih =>
    rw [List.mapM_cons] at h
    obtain ⟨y, hy, h⟩ := bind_ok.mp h
    obtain ⟨zs, hz, h⟩ := bind_ok.mp h
    exact pure_ok.mp h ▸ .cons hy (ih hz)

theorem mem_of_mapM {ε α β : Type} {f : α → Except ε β} {xs : List α} {ys : List β}
    (h : xs.mapM f = .ok ys) {y : β} (hy : y ∈ ys) : ∃ x ∈ xs, f x = .ok y := by
  have hf := mapM_ok h
  clear h
  induction hf with
  | nil => simp at hy
  | cons hxy _ ih =>
    rcases List.mem_cons.mp hy with rfl | hy
    · exact ⟨_, List.mem_cons_self, hxy⟩
    · obtain ⟨x, hx, he⟩ := ih hy
      exact ⟨x, List.mem_cons_of_mem _ hx, he⟩

theorem first_repeated_none {seen names : List String} (h : firstRepeated? seen names = none) :
    names.Nodup ∧ ∀ n ∈ names, n ∉ seen := by
  induction names generalizing seen with
  | nil => simp
  | cons n ns ih =>
    unfold firstRepeated? at h
    split at h
    · contradiction
    · rename_i hc
      obtain ⟨hd, hs⟩ := ih h
      refine ⟨List.nodup_cons.mpr ⟨fun hm => hs n hm List.mem_cons_self, hd⟩, ?_⟩
      intro x hx
      rcases List.mem_cons.mp hx with rfl | hx
      · simpa using hc
      · exact fun hm => hs x hx (List.mem_cons_of_mem _ hm)

theorem distinct_of_check {owner : String} {names : List String} {u : Unit}
    (h : checkDistinct owner names = .ok u) : names.Nodup := by
  unfold checkDistinct at h
  split at h
  · contradiction
  · rename_i hf
    exact (first_repeated_none hf).1

/-- Where names are distinct, looking one up finds the item that has it. -/
theorem find_named_iff {α : Type} {name : α → String} {xs : List α} (h : (xs.map name).Nodup)
    {n : String} {x : α} :
    xs.find? (fun x => name x = n) = some x ↔ x ∈ xs ∧ name x = n := by
  constructor
  · intro hf
    exact ⟨List.mem_of_find?_eq_some hf, by simpa using List.find?_some hf⟩
  · rintro ⟨hx, rfl⟩
    cases hf : xs.find? fun y => name y = name x with
    | none => simpa using List.find?_eq_none.mp hf x hx
    | some y =>
      have hy : name y = name x := by simpa using List.find?_some hf
      exact congrArg some (List.inj_on_of_nodup_map h (List.mem_of_find?_eq_some hf) hx hy)

/-- Every type that a field mentions: its own, then those of its arguments. -/
def Field.types (f : Field) : List TypeRef :=
  f.type :: f.args.map Argument.type

namespace TypeDef

/-- The fields or input fields of a type. Other kinds have none. -/
def members (t : TypeDef) : List Member :=
  match t.body with
  | .object _ fields => fields.map Field.member
  | .interface fields => fields.map Field.member
  | .inputObject fields => fields.map Argument.member
  | _ => []

/-- The names of an enum's values. Other kinds have none. -/
def values (t : TypeDef) : List String :=
  match t.body with
  | .enum values => values.map EnumValue.name
  | _ => []

def refs (t : TypeDef) : List TypeRef :=
  match t.body with
  | .object _ fields => fields.flatMap Field.types
  | .interface fields => fields.flatMap Field.types
  | .inputObject fields => fields.map Argument.type
  | _ => []

theorem member_ref {t : TypeDef} {m : Member} (hm : m ∈ t.members) : m.type ∈ t.refs := by
  unfold members at hm
  unfold refs
  split at hm
  · obtain ⟨f, hf, rfl⟩ := List.mem_map.mp hm
    exact List.mem_flatMap.mpr ⟨f, hf, List.mem_cons_self⟩
  · obtain ⟨f, hf, rfl⟩ := List.mem_map.mp hm
    exact List.mem_flatMap.mpr ⟨f, hf, List.mem_cons_self⟩
  · obtain ⟨a, ha, rfl⟩ := List.mem_map.mp hm
    exact List.mem_map.mpr ⟨a, ha, rfl⟩
  · simp at hm

/-- What the checks on an entry promise about its definition. -/
structure Built (t : TypeDef) : Prop where
  members_distinct : (t.members.map Member.name).Nodup
  values_distinct : t.values.Nodup
  refs_regular : ∀ r ∈ t.refs, r.Regular

end TypeDef

theorem Argument.build_shape {owner : String} {raw : Introspection.InputValue} {a : Argument}
    (h : build owner raw = .ok a) : a.name = raw.name ∧ a.type.Regular := by
  obtain ⟨type, ht, h⟩ := bind_ok.mp h
  obtain rfl := pure_ok.mp h
  exact ⟨rfl, RefChain.resolve_at_regular ht⟩

theorem Field.build_shape {owner : String} {raw : Introspection.Field} {f : Field}
    (h : build owner raw = .ok f) : f.name = raw.name ∧ ∀ r ∈ f.types, r.Regular := by
  obtain ⟨args, hargs, h⟩ := bind_ok.mp h
  obtain ⟨_, _, h⟩ := bind_ok.mp h
  obtain ⟨type, ht, h⟩ := bind_ok.mp h
  obtain rfl := pure_ok.mp h
  refine ⟨rfl, ?_⟩
  intro r hr
  rcases List.mem_cons.mp hr with rfl | hr
  · exact RefChain.resolve_at_regular ht
  · obtain ⟨a, ha, rfl⟩ := List.mem_map.mp hr
    obtain ⟨raw, _, hb⟩ := mem_of_mapM hargs ha
    exact (Argument.build_shape hb).2

namespace TypeDef

theorem build_fields_shape {raw : Introspection.TypeEntry} {fields : List Field}
    (h : buildFields raw = .ok fields) :
    (fields.map Field.name).Nodup ∧ ∀ r ∈ fields.flatMap Field.types, r.Regular := by
  obtain ⟨fs, hfs, h⟩ := bind_ok.mp h
  obtain ⟨_, hd, h⟩ := bind_ok.mp h
  obtain rfl := pure_ok.mp h
  refine ⟨distinct_of_check hd, ?_⟩
  intro r hr
  obtain ⟨f, hf, hr⟩ := List.mem_flatMap.mp hr
  obtain ⟨raw, _, hb⟩ := mem_of_mapM hfs hf
  exact (Field.build_shape hb).2 r hr

theorem build_body_built {raw : Introspection.TypeEntry} {kind : TypeKind} {body : TypeBody}
    (h : buildBody raw kind = .ok body) (name : String) (description : Option String) :
    (⟨name, description, body⟩ : TypeDef).Built := by
  cases kind with
  | object =>
    obtain ⟨fields, hf, h⟩ := bind_ok.mp h
    obtain rfl := pure_ok.mp h
    obtain ⟨hd, hr⟩ := build_fields_shape hf
    exact ⟨by simpa [members, Function.comp_def, Field.member] using hd, by simp [values], hr⟩
  | interface =>
    obtain ⟨fields, hf, h⟩ := bind_ok.mp h
    obtain rfl := pure_ok.mp h
    obtain ⟨hd, hr⟩ := build_fields_shape hf
    exact ⟨by simpa [members, Function.comp_def, Field.member] using hd, by simp [values], hr⟩
  | inputObject =>
    obtain ⟨fields, hf, h⟩ := bind_ok.mp h
    obtain ⟨_, hd, h⟩ := bind_ok.mp h
    obtain rfl := pure_ok.mp h
    refine ⟨by simpa [members, Function.comp_def, Argument.member] using distinct_of_check hd,
      by simp [values], ?_⟩
    intro r hr
    obtain ⟨a, ha, rfl⟩ := List.mem_map.mp hr
    obtain ⟨raw, _, hb⟩ := mem_of_mapM hf ha
    exact (Argument.build_shape hb).2
  | enum =>
    obtain ⟨_, hd, h⟩ := bind_ok.mp h
    obtain rfl := pure_ok.mp h
    exact ⟨by simp [members], by simpa [values] using distinct_of_check hd, by simp [refs]⟩
  | union =>
    cases h
    exact ⟨by simp [members], by simp [values], by simp [refs]⟩
  | scalar =>
    cases h
    exact ⟨by simp [members], by simp [values], by simp [refs]⟩

theorem build_built {raw : Introspection.TypeEntry} {t : TypeDef} (h : build raw = .ok t) :
    t.name = raw.name ∧ t.Built := by
  unfold build at h
  split at h
  · contradiction
  · obtain ⟨body, hb, h⟩ := bind_ok.mp h
    obtain rfl := pure_ok.mp h
    exact ⟨rfl, build_body_built hb _ _⟩

/-- The definitions so far keep their names apart, and so do the ones still to come. -/
theorem build_all_built {done types : List TypeDef} {raws : List Introspection.TypeEntry}
    (hd : (done.map name).Nodup) (hb : ∀ t ∈ done, t.Built)
    (h : buildAll done raws = .ok types) :
    (types.map name).Nodup ∧ ∀ t ∈ types, t.Built := by
  induction raws generalizing done with
  | nil =>
    cases h
    exact ⟨by simpa using hd, by simpa using hb⟩
  | cons raw raws ih =>
    unfold buildAll at h
    split at h
    · exact ih hd hb h
    · split at h
      · contradiction
      · rename_i hnew
        obtain ⟨t, ht, h⟩ := bind_ok.mp h
        obtain ⟨hname, hbuilt⟩ := build_built ht
        refine ih ?_ ?_ h
        · refine List.nodup_cons.mpr ⟨?_, hd⟩
          intro hm
          obtain ⟨u, hu, he⟩ := List.mem_map.mp hm
          exact hnew (List.any_eq_true.mpr ⟨u, hu, by simp [he, hname]⟩)
        · intro u hu
          rcases List.mem_cons.mp hu with rfl | hu
          · exact hbuilt
          · exact hb u hu

end TypeDef

namespace Model

/-- Every type reference of a model, arguments included. -/
def refs (m : Model) : List TypeRef :=
  m.types.flatMap TypeDef.refs

/-- What every model read from a document has. -/
structure Built (m : Model) : Prop where
  names_distinct : m.names.Nodup
  types_built : ∀ t ∈ m.types, t.Built

theorem built_of_schema {s : Introspection.Schema} {m : Model} (h : ofSchema s = .ok m) :
    m.Built := by
  unfold ofSchema at h
  split at h
  · contradiction
  · contradiction
  · obtain ⟨types, ht, h⟩ := bind_ok.mp h
    obtain ⟨_, _, h⟩ := bind_ok.mp h
    obtain ⟨_, _, h⟩ := bind_ok.mp h
    obtain ⟨_, _, h⟩ := bind_ok.mp h
    obtain rfl := pure_ok.mp h
    obtain ⟨hn, hb⟩ := TypeDef.build_all_built (by simp) (by simp) ht
    exact ⟨hn, hb⟩

theorem Built.refs_regular {m : Model} (h : m.Built) : ∀ r ∈ m.refs, r.Regular := by
  intro r hr
  obtain ⟨t, ht, hr⟩ := List.mem_flatMap.mp hr
  exact (h.types_built t ht).refs_regular r hr

theorem mem_names {m : Model} {t : TypeDef} (h : t ∈ m.types) : t.name ∈ m.names :=
  List.mem_map_of_mem h

/-- Where names are distinct, looking a name up finds the type that has it. -/
theorem find_iff {m : Model} (h : m.names.Nodup) {name : String} {t : TypeDef} :
    m.find? name = some t ↔ t ∈ m.types ∧ t.name = name :=
  find_named_iff h

theorem find_none_iff {m : Model} {name : String} : m.find? name = none ↔ name ∉ m.names := by
  simp [find?, names, List.find?_eq_none]

end Model

namespace Introspection

/-- The reference that spells a chain and holds nothing else. -/
def RawRef.ofChain (chain : RefChain) : RawRef :=
  ⟨chain.toJson, chain, chain.of_json_to_json⟩

def Field.ofType (name : String) (type : RefChain) : Field :=
  ⟨name, .absent, .absent, .ofChain type, .absent, .absent⟩

/-- An object type of which only the fields and their types matter. -/
def TypeEntry.object (name : String) (fields : List (String × RefChain)) : TypeEntry :=
  ⟨"OBJECT", name, .absent, .filled (fields.map fun f => .ofType f.1 f.2), .absent, .absent,
    .absent, .absent⟩

def Schema.ofTypes (query : String) (types : List TypeEntry) : Schema :=
  ⟨.filled ⟨.filled query⟩, .absent, .absent, types⟩

end Introspection

end SchemaHistory
