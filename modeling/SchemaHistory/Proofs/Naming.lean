import SchemaHistory.Proofs.Building
import SchemaHistory.Proofs.ReferenceText
import SchemaHistory.Proofs.Unchanged

namespace SchemaHistory

/-- Texts that are names. -/
def IsName (text : String) : Prop :=
  isName text.toList = true

instance (text : String) : Decidable (IsName text) :=
  inferInstanceAs (Decidable (isName text.toList = true))

/-- The names of an argument or an input field: its own, and that of its type. -/
structure Argument.Named (a : Argument) : Prop where
  name : IsName a.name
  type : IsName a.type.baseName

structure Field.Named (f : Field) : Prop where
  name : IsName f.name
  type : IsName f.type.baseName
  args : ∀ a ∈ f.args, a.Named

/-- Whatever is named in a definition has a name that schema text allows. -/
structure TypeDef.Named (t : TypeDef) : Prop where
  name : IsName t.name
  links : ∀ n ∈ t.links, IsName n
  fields : ∀ f ∈ t.fields, f.Named
  inputs : ∀ a ∈ t.inputs, a.Named
  values : ∀ v ∈ t.values, IsName v

instance (a : Argument) : Decidable a.Named :=
  decidable_of_iff (IsName a.name ∧ IsName a.type.baseName)
    ⟨fun h => ⟨h.1, h.2⟩, fun h => ⟨h.name, h.type⟩⟩

instance (f : Field) : Decidable f.Named :=
  decidable_of_iff (IsName f.name ∧ IsName f.type.baseName ∧ ∀ a ∈ f.args, a.Named)
    ⟨fun h => ⟨h.1, h.2.1, h.2.2⟩, fun h => ⟨h.name, h.type, h.args⟩⟩

instance (t : TypeDef) : Decidable t.Named :=
  decidable_of_iff (IsName t.name ∧ (∀ n ∈ t.links, IsName n) ∧ (∀ f ∈ t.fields, f.Named) ∧
      (∀ a ∈ t.inputs, a.Named) ∧ ∀ v ∈ t.values, IsName v)
    ⟨fun h => ⟨h.1, h.2.1, h.2.2.1, h.2.2.2.1, h.2.2.2.2⟩,
      fun h => ⟨h.name, h.links, h.fields, h.inputs, h.values⟩⟩

/-- The arguments of all fields, or the input fields. -/
def TypeDef.arguments (t : TypeDef) : List Argument :=
  t.fields.flatMap Field.args ++ t.inputs

/-- The default values of a definition, as they are written. -/
def TypeDef.defaults (t : TypeDef) : List String :=
  t.arguments.filterMap Argument.defaultValue

theorem IsName.chars {text : String} (h : IsName text) : ∀ c ∈ text.toList, isNameChar c = true :=
  TypeRef.name_chars h

theorem IsName.nonempty {text : String} (h : IsName text) : text.toList ≠ [] := by
  intro he
  rw [IsName, he] at h
  contradiction

theorem name_char_ne {c d : Char} (h : isNameChar c = true) (hd : isNameChar d = false) :
    c ≠ d := by
  rintro rfl
  exact Bool.false_ne_true (hd.symm.trans h)

theorem IsName.clear {text : String} (h : IsName text) {d : Char} (hd : isNameChar d = false) :
    d ∉ text.toList :=
  fun hm => name_char_ne (h.chars d hm) hd rfl

theorem TypeRef.text_clear {t : TypeRef} (h : IsName t.baseName) {d : Char}
    (hd : Text.isBlank d = true) : d ∉ t.text.toList := by
  intro hm
  rw [text, String.toList_ofList] at hm
  exact Bool.false_ne_true ((text_not_blank h d hm).symm.trans hd)

theorem Argument.mem_defaults {t : TypeDef} {a : Argument} (h : a ∈ t.arguments) {value : String}
    (hv : a.defaultValue = some value) : value ∈ t.defaults :=
  List.mem_filterMap.mpr ⟨a, h, hv⟩

theorem Field.mem_arguments {t : TypeDef} {f : Field} (h : f ∈ t.fields) {a : Argument}
    (ha : a ∈ f.args) : a ∈ t.arguments :=
  List.mem_append_left _ (List.mem_flatMap.mpr ⟨f, h, ha⟩)

/-- A property of texts that members have, as they are written, if their names and default values
have it. -/
structure Sdl.Kept (P : String → Prop) : Prop where
  empty : P ""
  name : ∀ {n : String}, IsName n → P n
  type : ∀ {t : TypeRef}, IsName t.baseName → P t.text
  join : ∀ sep ∈ [": ", " = ", ", ", "(", ")"], ∀ {a b : String}, P a → P b → P (a ++ sep ++ b)

section

open Sdl

variable {P : String → Prop}

theorem Sdl.Kept.joined (hp : Kept P) {texts : List String} (h : ∀ t ∈ texts, P t) :
    P (String.intercalate ", " texts) := by
  induction texts with
  | nil =>
    rw [String.intercalate_nil]
    exact hp.empty
  | cons t ts ih =>
    obtain ⟨ht, hts⟩ := List.forall_mem_cons.mp h
    cases ts with
    | nil => rwa [String.intercalate_singleton]
    | cons u us =>
      rw [String.intercalate_cons_of_ne_nil (List.cons_ne_nil _ _)]
      exact hp.join ", " (by simp) ht (ih hts)

theorem Argument.sdl_kept (hp : Kept P) {a : Argument} (h : a.Named)
    (hd : ∀ value ∈ a.defaultValue, P value) : P a.sdl := by
  have hhead := hp.join ": " (by simp) (hp.name h.name) (hp.type h.type)
  unfold sdl
  split
  · exact hhead
  · rename_i value hv
    exact hp.join " = " (by simp) hhead (hd value hv)

theorem Field.sdl_kept (hp : Kept P) {f : Field} (h : f.Named)
    (hd : ∀ a ∈ f.args, ∀ value ∈ a.defaultValue, P value) : P (f.sdl .bare) := by
  have hargs : P (f.name ++ if f.args.isEmpty then ""
      else "(" ++ String.intercalate ", " (f.args.map Argument.sdl) ++ ")") := by
    split
    · rw [String.append_empty]
      exact hp.name h.name
    · have hlist : P (String.intercalate ", " (f.args.map Argument.sdl)) := by
        refine hp.joined fun text ht => ?_
        obtain ⟨a, ha, rfl⟩ := List.mem_map.mp ht
        exact Argument.sdl_kept hp (h.args a ha) (hd a ha)
      have hopen := hp.join "(" (by simp) (hp.name h.name) hlist
      have hclose := hp.join ")" (by simp) hopen hp.empty
      simpa [String.append_assoc] using hclose
  have hline := hp.join ": " (by simp) hargs (hp.type h.type)
  rw [sdl, deprecation_hidden, String.append_empty]
  exact hline

/-- The fields of a definition, as they are written, have a property that its names and default
values have. -/
theorem TypeDef.fields_kept (hp : Kept P) {t : TypeDef} (h : t.Named)
    (hd : ∀ value ∈ t.defaults, P value) : ∀ f ∈ t.fields, P (f.sdl .bare) :=
  fun f hf => Field.sdl_kept hp (h.fields f hf) fun _ ha _ hv =>
    hd _ (Argument.mem_defaults (Field.mem_arguments hf ha) hv)

theorem TypeDef.inputs_kept (hp : Kept P) {t : TypeDef} (h : t.Named)
    (hd : ∀ value ∈ t.defaults, P value) : ∀ a ∈ t.inputs, P a.sdl :=
  fun a ha => Argument.sdl_kept hp (h.inputs a ha) fun _ hv =>
    hd _ (Argument.mem_defaults (List.mem_append_right _ ha) hv)

end

namespace Model

/-- The root types of a built model are object types that it defines. -/
theorem roots_defined {s : Introspection.Schema} {m : Model} (h : ofSchema s = .ok m)
    {operation name usual : String} (hr : (operation, name, usual) ∈ m.roots) :
    ∃ t ∈ m.types, t.name = name ∧ t.kind = .object := by
  have hn := (built_of_schema h).names_distinct
  obtain ⟨hw, ho⟩ := of_schema_iff.mp h
  have hroot : ∃ root ∈ [s.queryType, s.mutationType, s.subscriptionType],
      rootName root = some name := by
    simp only [roots, List.mem_cons, List.mem_append, List.mem_map, Option.mem_toList,
      Prod.mk.injEq] at hr
    rcases hr with ⟨_, rfl, _⟩ | ⟨n, hn, _, rfl, _⟩ | ⟨n, hn, _, rfl, _⟩
    · exact ⟨_, by simp, ho.query⟩
    · exact ⟨s.mutationType, by simp, ho.mutation ▸ hn⟩
    · exact ⟨s.subscriptionType, by simp, ho.subscription ▸ hn⟩
  obtain ⟨root, hmem, hname⟩ := hroot
  obtain ⟨t, hf, hk⟩ := (ho.root_iff hn).mpr (hw.roots root hmem name hname)
  obtain ⟨ht, hname⟩ := (find_iff hn).mp hf
  exact ⟨t, ht, hname, hk⟩

theorem root_names {s : Introspection.Schema} {m : Model} (h : ofSchema s = .ok m)
    (hn : ∀ t ∈ m.types, t.Named) :
    ∀ root ∈ m.roots, IsName root.1 ∧ IsName root.2.1 := by
  intro root hr
  obtain ⟨operation, name, usual⟩ := root
  obtain ⟨t, ht, rfl, _⟩ := roots_defined h hr
  refine ⟨?_, (hn t ht).name⟩
  have hop : operation ∈ ["query", "mutation", "subscription"] := by
    simp only [roots, List.mem_cons, List.mem_append, List.mem_map, Prod.mk.injEq] at hr
    rcases hr with ⟨rfl, _⟩ | ⟨_, _, rfl, _⟩ | ⟨_, _, rfl, _⟩ <;> simp
  have hall : ∀ text ∈ ["query", "mutation", "subscription"], IsName text := by decide
  exact hall operation hop

theorem root_written {s : Introspection.Schema} {m : Model} (h : ofSchema s = .ok m) :
    ∃ t ∈ m.types.filter isWritten, t.name = m.query := by
  obtain ⟨t, ht, hname, hkind⟩ := roots_defined h List.mem_cons_self
  refine ⟨t, List.mem_filter.mpr ⟨ht, ?_⟩, hname⟩
  rw [isWritten, hkind]
  rfl

end Model

end SchemaHistory
