import SchemaHistory.Proofs.Built

namespace SchemaHistory

/-- Items that each have a partner have a list of partners. -/
theorem forall₂_of_each {α β : Type} {r : α → β → Prop} {xs : List α}
    (h : ∀ x ∈ xs, ∃ y, r x y) : ∃ ys, List.Forall₂ r xs ys := by
  induction xs with
  | nil => exact ⟨[], .nil⟩
  | cons x xs ih =>
    obtain ⟨⟨y, hy⟩, hxs⟩ := List.forall_mem_cons.mp h
    obtain ⟨ys, hys⟩ := ih hxs
    exact ⟨y :: ys, .cons hy hys⟩

namespace Introspection

def RawRef.Resolves (r : RawRef) : Prop :=
  ∃ t, r.chain.resolve = .ok t

/-- Arguments or input fields: every type resolves, and no two share a name. -/
structure WellFormedInputs (vs : List InputValue) : Prop where
  types : ∀ v ∈ vs, v.type.Resolves
  distinct : (vs.map InputValue.name).Nodup

structure Field.WellFormed (f : Field) : Prop where
  type : f.type.Resolves
  args : WellFormedInputs f.args.items

structure WellFormedFields (fs : List Field) : Prop where
  fields : ∀ f ∈ fs, f.WellFormed
  distinct : (fs.map Field.name).Nodup

/-- What an entry of a kind has to satisfy. Lists that the kind does not use may hold anything. -/
def TypeEntry.WellFormedAs (t : TypeEntry) : TypeKind → Prop
  | .object => WellFormedFields t.fields.items
  | .interface => WellFormedFields t.fields.items
  | .inputObject => WellFormedInputs t.inputFields.items
  | .enum => (t.enumValues.items.map EnumValue.name).Nodup
  | .union => True
  | .scalar => True

def TypeEntry.WellFormed (t : TypeEntry) : Prop :=
  ∃ kind : TypeKind, kind.text = t.kind ∧ t.WellFormedAs kind

/-- The entries that do not belong to introspection itself. -/
def ownEntries (ts : List TypeEntry) : List TypeEntry :=
  ts.filter fun t => !TypeDef.isReserved t.name

/-- The schemas that a model can be built of. -/
structure Schema.WellFormed (s : Schema) : Prop where
  query : ∃ name, Model.rootName s.queryType = some name ∧ name ≠ ""
  distinct : ((ownEntries s.types).map TypeEntry.name).Nodup
  entries : ∀ t ∈ ownEntries s.types, t.WellFormed
  roots : ∀ root ∈ [s.queryType, s.mutationType, s.subscriptionType],
    ∀ name, Model.rootName root = some name →
      ∃ t ∈ ownEntries s.types, t.name = name ∧ t.kind = TypeKind.object.text

end Introspection

/-- An argument or input field says what the document says. -/
structure Argument.Of (raw : Introspection.InputValue) (a : Argument) : Prop where
  name : a.name = raw.name
  description : a.description = raw.description.value?
  type : raw.type.chain.resolve = .ok a.type
  defaultValue : a.defaultValue = raw.defaultValue.value?

structure Field.Of (raw : Introspection.Field) (f : Field) : Prop where
  name : f.name = raw.name
  description : f.description = raw.description.value?
  type : raw.type.chain.resolve = .ok f.type
  args : List.Forall₂ Argument.Of raw.args.items f.args
  isDeprecated : f.isDeprecated = raw.isDeprecated.value?.getD false
  deprecationReason : f.deprecationReason = raw.deprecationReason.value?

structure EnumValue.Of (raw : Introspection.EnumValue) (v : EnumValue) : Prop where
  name : v.name = raw.name
  description : v.description = raw.description.value?
  isDeprecated : v.isDeprecated = raw.isDeprecated.value?.getD false
  deprecationReason : v.deprecationReason = raw.deprecationReason.value?

/-- A body has what the entry lists for its kind, in the same order. -/
def TypeBody.Of (raw : Introspection.TypeEntry) : TypeBody → Prop
  | .object interfaces fields =>
    interfaces = raw.interfaces.items ∧ List.Forall₂ Field.Of raw.fields.items fields
  | .interface fields => List.Forall₂ Field.Of raw.fields.items fields
  | .inputObject fields => List.Forall₂ Argument.Of raw.inputFields.items fields
  | .enum values => List.Forall₂ EnumValue.Of raw.enumValues.items values
  | .union members => members = raw.possibleTypes.items
  | .scalar => True

structure TypeDef.Of (raw : Introspection.TypeEntry) (t : TypeDef) : Prop where
  name : t.name = raw.name
  description : t.description = raw.description.value?
  kind : t.kind.text = raw.kind
  body : t.body.Of raw

/-- A model has a definition for each entry that is not reserved, in the same order, and the roots
that the schema names. -/
structure Model.Of (s : Introspection.Schema) (m : Model) : Prop where
  types : List.Forall₂ TypeDef.Of (Introspection.ownEntries s.types) m.types
  query : Model.rootName s.queryType = some m.query
  mutation : m.mutation = Model.rootName s.mutationType
  subscription : m.subscription = Model.rootName s.subscriptionType

theorem Argument.exists_of {raw : Introspection.InputValue} (h : raw.type.Resolves) :
    ∃ a, Argument.Of raw a := by
  obtain ⟨type, ht⟩ := h
  exact ⟨⟨raw.name, raw.description.value?, type, raw.defaultValue.value?⟩, rfl, rfl, ht, rfl⟩

theorem Field.exists_of {raw : Introspection.Field} (h : raw.WellFormed) :
    ∃ f, Field.Of raw f := by
  obtain ⟨type, ht⟩ := h.type
  obtain ⟨args, hargs⟩ := forall₂_of_each fun v hv => Argument.exists_of (h.args.types v hv)
  exact ⟨⟨raw.name, raw.description.value?, type, args, raw.isDeprecated.value?.getD false,
    raw.deprecationReason.value?⟩, rfl, rfl, ht, hargs, rfl, rfl⟩

namespace TypeDef

theorem enum_values_of (raws : List Introspection.EnumValue) :
    List.Forall₂ EnumValue.Of raws (raws.map EnumValue.build) :=
  List.forall₂_map_right_iff.mpr (List.forall₂_same.mpr fun _ _ => ⟨rfl, rfl, rfl, rfl⟩)

theorem exists_body_of {raw : Introspection.TypeEntry} {kind : TypeKind}
    (h : raw.WellFormedAs kind) : ∃ body : TypeBody, body.kind = kind ∧ body.Of raw := by
  cases kind with
  | object =>
    obtain ⟨fields, hf⟩ := forall₂_of_each fun f hf => Field.exists_of (h.fields f hf)
    exact ⟨.object raw.interfaces.items fields, rfl, rfl, hf⟩
  | interface =>
    obtain ⟨fields, hf⟩ := forall₂_of_each fun f hf => Field.exists_of (h.fields f hf)
    exact ⟨.interface fields, rfl, hf⟩
  | inputObject =>
    obtain ⟨fields, hf⟩ := forall₂_of_each fun v hv => Argument.exists_of (h.types v hv)
    exact ⟨.inputObject fields, rfl, hf⟩
  | enum => exact ⟨.enum _, rfl, enum_values_of _⟩
  | union => exact ⟨.union raw.possibleTypes.items, rfl, rfl⟩
  | scalar => exact ⟨.scalar, rfl, trivial⟩

theorem exists_of {raw : Introspection.TypeEntry} (h : raw.WellFormed) : ∃ t, TypeDef.Of raw t := by
  obtain ⟨kind, hk, hw⟩ := h
  obtain ⟨body, rfl, hb⟩ := exists_body_of hw
  exact ⟨⟨raw.name, raw.description.value?, body⟩, rfl, rfl, hk, hb⟩

end TypeDef

theorem Model.exists_of {s : Introspection.Schema} (h : s.WellFormed) : ∃ m, Model.Of s m := by
  obtain ⟨query, hq, _⟩ := h.query
  obtain ⟨types, ht⟩ := forall₂_of_each fun raw hr => TypeDef.exists_of (h.entries raw hr)
  exact ⟨⟨types, query, rootName s.mutationType, rootName s.subscriptionType⟩, ht, hq, rfl, rfl⟩

end SchemaHistory
