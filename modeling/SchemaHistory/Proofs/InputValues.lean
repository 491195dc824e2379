import SchemaHistory.Proofs.ChangeOrder
import SchemaHistory.Proofs.Compatible

namespace SchemaHistory

/-- What a client gives for an input object: values by the names of its fields. An input object
inside another one is a leaf, known by the name of its type. -/
abbrev InputObject := List (String × Value)

/-- Whether clients have to give a value to an input field: it does not admit null and has no
default. -/
def Argument.required (a : Argument) : Bool :=
  a.type.isNonNull && a.defaultValue.isNone

/-- Some input fields accept an input object: it gives values to these fields only, each one of its
type, and to every field that needs one. -/
structure Accepts (fields : List Argument) (given : InputObject) : Prop where
  known : ∀ name v, given.lookup name = some v → ∃ f ∈ fields, f.name = name ∧ f.type.Holds v
  complete : ∀ f ∈ fields, f.required = true → given.lookup f.name ≠ none

/-- The fields of an input object type. -/
def Model.inputFields? (m : Model) (name : String) : Option (List Argument) :=
  (m.find? name).bind fun t =>
    match t.body with
    | .inputObject fields => some fields
    | _ => none

namespace TypeRef

/-- A value of a type, null if it admits null. -/
def sample : TypeRef → Value
  | nonNull (named name) => .leaf name
  | nonNull _ => .list []
  | _ => .null

theorem holds_sample {t : TypeRef} (ht : t.Regular) : t.Holds t.sample := by
  cases t with
  | named name => exact .inl rfl
  | list t => exact .inl rfl
  | nonNull t =>
    cases t with
    | named name => exact ⟨by simp [sample], .inr rfl⟩
    | list t => exact ⟨by simp [sample], .inr ⟨[], rfl, by simp⟩⟩
    | nonNull t => exact absurd ht.1 (by simp [isNonNull])

end TypeRef

/-- The input object that gives a value to the required fields only. -/
def InputObject.least (fields : List Argument) : InputObject :=
  (fields.filter Argument.required).map fun f => (f.name, f.type.sample)

theorem lookup_of_mem {α : Type} {name : String} {a : α} {entries : List (String × α)}
    (h : (name, a) ∈ entries) : entries.lookup name ≠ none := by
  intro hn
  simpa using List.lookup_eq_none_iff.mp hn _ h

section

variable {fields : List Argument}

theorem least_given {name : String} {v : Value}
    (h : (InputObject.least fields).lookup name = some v) :
    ∃ f ∈ fields, f.name = name ∧ f.required = true ∧ v = f.type.sample := by
  obtain ⟨f, hf, he⟩ := List.mem_map.mp (mem_of_lookup h)
  obtain ⟨hm, hr⟩ := List.mem_filter.mp hf
  cases he
  exact ⟨f, hm, rfl, hr, rfl⟩

theorem least_complete {f : Argument} (hf : f ∈ fields) (hr : f.required = true) :
    (InputObject.least fields).lookup f.name ≠ none :=
  lookup_of_mem (List.mem_map_of_mem (List.mem_filter.mpr ⟨hf, hr⟩))

theorem accepts_least (h : ∀ f ∈ fields, f.type.Regular) :
    Accepts fields (.least fields) where
  known name v hv := by
    obtain ⟨f, hf, hn, _, rfl⟩ := least_given hv
    exact ⟨f, hf, hn, TypeRef.holds_sample (h f hf)⟩
  complete f hf hr := least_complete hf hr

/-- One more field may be given a value, or another one. -/
theorem accepts_cons {given : InputObject} (h : Accepts fields given) {f : Argument}
    (hf : f ∈ fields) {v : Value} (hv : f.type.Holds v) :
    Accepts fields ((f.name, v) :: given) where
  known name w hw := by
    by_cases hn : name = f.name
    · subst hn
      rw [List.lookup_cons_self] at hw
      exact ⟨f, hf, rfl, Option.some.inj hw ▸ hv⟩
    · rw [lookup_skip hn] at hw
      exact h.known name w hw
  complete g hg hr := by
    by_cases hn : g.name = f.name
    · rw [hn, List.lookup_cons_self]
      simp
    · rw [lookup_skip hn]
      exact h.complete g hg hr

end

/-- Input fields that may stand in for others as far as comparisons see: none is lost, and each
keeps its text or all of its values. -/
def Widened (old new : List Argument) : Prop :=
  ∀ f ∈ old, ∃ g ∈ new, f.name = g.name ∧ (f.type.text = g.type.text ∨ f.type.Within g.type)

/-- The fields that keep the texts of their types lose no values. -/
def KeepsValues (old new : List Argument) : Prop :=
  ∀ f ∈ old, ∀ g ∈ new, f.name = g.name → f.type.text = g.type.text → f.type.Within g.type

/-- Whatever field is required now was required before. -/
def KeepsRequired (old new : List Argument) : Prop :=
  ∀ g ∈ new, g.required = true → ∃ f ∈ old, f.name = g.name ∧ f.required = true

section

variable {old new : List Argument} {given : InputObject}

theorem keeps_values_named (h : ∀ f ∈ old ++ new, isName f.type.baseName.toList = true) :
    KeepsValues old new := by
  intro f hf g hg _ ht
  have hfn := h f (List.mem_append_left _ hf)
  have hgn := h g (List.mem_append_right _ hg)
  exact TypeRef.text_determines hfn hgn ht ▸ TypeRef.Within.refl _

/-- What the old fields accept is accepted by the new ones if it has what they require. -/
theorem accepts_widened (hw : Widened old new) (hk : KeepsValues old new)
    (h : Accepts old given) (hr : ∀ g ∈ new, g.required = true → given.lookup g.name ≠ none) :
    Accepts new given where
  known name v hv := by
    obtain ⟨f, hf, hn, hx⟩ := h.known name v hv
    obtain ⟨g, hg, he, ht⟩ := hw f hf
    have hwithin : f.type.Within g.type := ht.elim (hk f hf g hg he) id
    exact ⟨g, hg, he.symm.trans hn, hwithin v hx⟩
  complete := hr

/-- The input object with the required fields only shows which fields are newly required. -/
theorem keeps_required_of_accepts (hold : ∀ f ∈ old, f.type.Regular)
    (h : ∀ given, Accepts old given → Accepts new given) : KeepsRequired old new := by
  intro g hg hr
  have hc := (h _ (accepts_least hold)).complete g hg hr
  obtain ⟨v, hv⟩ := Option.ne_none_iff_exists'.mp hc
  obtain ⟨f, hf, hn, hfr, _⟩ := least_given hv
  exact ⟨f, hf, hn, hfr⟩

/-- Every value of an old field can be given to it, and has to be one of the new field. -/
theorem keeps_values_of_accepts (hold : ∀ f ∈ old, f.type.Regular)
    (hd : (new.map Argument.name).Nodup) (h : ∀ given, Accepts old given → Accepts new given) :
    KeepsValues old new := by
  intro f hf g hg he _ v hv
  have ha := h _ (accepts_cons (accepts_least hold) hf hv)
  obtain ⟨k, hk, hn, hx⟩ := ha.known f.name v List.lookup_cons_self
  obtain rfl : k = g := List.inj_on_of_nodup_map hd hk hg (hn.trans he)
  exact hx

theorem accepts_iff_keeps (hold : ∀ f ∈ old, f.type.Regular) (hd : (new.map Argument.name).Nodup)
    (hw : Widened old new) : (∀ given, Accepts old given → Accepts new given) ↔
      KeepsRequired old new ∧ KeepsValues old new := by
  constructor
  · intro h
    exact ⟨keeps_required_of_accepts hold h, keeps_values_of_accepts hold hd h⟩
  · rintro ⟨hr, hk⟩ given ha
    refine accepts_widened hw hk ha fun g hg hgr => ?_
    obtain ⟨f, hf, hn, hfr⟩ := hr g hg hgr
    exact hn ▸ ha.complete f hf hfr

end

namespace TypeDef

variable {s t : TypeDef} {old new : List Argument}

theorem input_refs (h : t.body = .inputObject new) (ht : t.Built) :
    (∀ g ∈ new, g.type.Regular) ∧ (new.map Argument.name).Nodup := by
  constructor
  · intro g hg
    refine ht.refs_regular _ ?_
    rw [refs, h]
    exact List.mem_map_of_mem hg
  · have hd := ht.members_distinct
    simpa [members, h, Function.comp_def, Argument.member] using hd

/-- An input object type that clients can be moved to has wider fields. -/
theorem MayBecome.widened (h : s.MayBecome .structural t) (ho : s.body = .inputObject old)
    (hn : t.body = .inputObject new) (hs : s.Built) (ht : t.Built) : Widened old new := by
  intro f hf
  have hm : f.member ∈ s.members := by
    rw [TypeDef.members, ho]
    exact List.mem_map_of_mem hf
  obtain ⟨n, hmem, he, hb⟩ := h.members _ hm
  rw [TypeDef.members, hn] at hmem
  obtain ⟨g, hg, rfl⟩ := List.mem_map.mp hmem
  refine ⟨g, hg, he, hb.imp_right fun hsafe => ?_⟩
  have hp : s.kind.position = .input := by rw [TypeDef.kind, ho]; rfl
  rw [hp] at hsafe
  have hflag : TypeRef.replaceable .input f.type g.type = true := by
    simpa [TypeRef.isBreakingChange, Argument.member] using hsafe
  have hfr := (input_refs ho hs).1 f hf
  have hgr := (input_refs hn ht).1 g hg
  exact (TypeRef.replaceable_input_iff hfr hgr).mp hflag

end TypeDef

namespace Model

theorem input_fields_iff {m : Model} (h : m.Built) {name : String} {fields : List Argument} :
    m.inputFields? name = some fields ↔
      ∃ t ∈ m.types, t.name = name ∧ t.body = .inputObject fields := by
  unfold inputFields?
  rw [Option.bind_eq_some_iff]
  constructor
  · rintro ⟨t, hf, hb⟩
    obtain ⟨ht, hn⟩ := (find_iff h.names_distinct).mp hf
    refine ⟨t, ht, hn, ?_⟩
    split at hb
    · rename_i hb'
      exact Option.some.inj hb ▸ hb'
    · contradiction
  · rintro ⟨t, ht, hn, hb⟩
    refine ⟨t, (find_iff h.names_distinct).mpr ⟨ht, hn⟩, ?_⟩
    rw [hb]

/-- Where no change of a type breaks clients, its new definition can stand in for the old one. -/
theorem may_become_of_safe {policy : Policy} {a b : Model} (hb : b.Built) {s t : TypeDef}
    (hs : s ∈ a.types) (ht : t ∈ b.types) (hn : s.name = t.name)
    (safe : ∀ c ∈ a.changes policy b, c.typeName = s.name → c.isBreaking = false) :
    s.MayBecome policy t := by
  refine (TypeDef.may_become_iff (hb.types_built t ht)).mp fun c hc => ?_
  exact safe c ((mem_changes hb).mpr (.inr (.inl ⟨s, hs, t, ht, hn, hc⟩))) (hc.type_name hn)

/-- Where no change of an input object type breaks clients by structure, all that the old type
accepts is accepted by the new one just when no field has become required, by its type, by losing
its default or by being new, and none has lost values under an unchanged text. Where types have
proper names, no text stands for two of them, and what is accepted depends on the required fields
only. -/
theorem input_change_accepts_iff {r s : Introspection.Schema} {a b : Model} {name : String}
    {old new : List Argument} (ha : ofSchema r = .ok a) (hb : ofSchema s = .ok b)
    (ho : a.inputFields? name = some old) (hn : b.inputFields? name = some new)
    (safe : ∀ c ∈ a.changes .structural b, c.typeName = name → c.isBreaking = false) :
    ((∀ given, Accepts old given → Accepts new given) ↔
      KeepsRequired old new ∧ KeepsValues old new) ∧
    ((∀ f ∈ old ++ new, isName f.type.baseName.toList = true) → KeepsValues old new ∧
      ∀ given, Accepts old given →
        (Accepts new given ↔ ∀ g ∈ new, g.required = true → given.lookup g.name ≠ none)) := by
  have hab := built_of_schema ha
  have hbb := built_of_schema hb
  obtain ⟨t, ht, rfl, hto⟩ := (input_fields_iff hab).mp ho
  obtain ⟨u, hu, hnu, hun⟩ := (input_fields_iff hbb).mp hn
  have hm := may_become_of_safe hbb ht hu hnu.symm safe
  have hw := hm.widened hto hun (hab.types_built t ht) (hbb.types_built u hu)
  obtain ⟨hold, _⟩ := TypeDef.input_refs hto (hab.types_built t ht)
  obtain ⟨_, hd⟩ := TypeDef.input_refs hun (hbb.types_built u hu)
  refine ⟨accepts_iff_keeps hold hd hw, fun hnames => ⟨keeps_values_named hnames, ?_⟩⟩
  intro given hg
  exact ⟨fun h => h.complete, accepts_widened hw (keeps_values_named hnames) hg⟩

end Model

namespace Introspection

def InputValue.ofType (name : String) (type : RefChain) (defaultValue : Slot String) : InputValue :=
  ⟨name, .absent, .ofChain type, defaultValue⟩

/-- A schema with one input object. -/
def filterSchema (fields : List InputValue) : Schema :=
  .ofTypes "Query" [.object "Query" [("size", .last "SCALAR" (some "Int"))],
    ⟨"INPUT_OBJECT", "Filter", .absent, .absent, .filled fields, .absent, .absent, .absent⟩]

def unitName : RefChain :=
  .last "SCALAR" (some "String")

/-- A size that cannot be null. -/
def strictSize : RefChain :=
  .link "NON_NULL" none (.last "SCALAR" (some "Int"))

end Introspection

namespace Model

open Introspection

/-- A field that no longer has to be given a value, and a new one without need of one. -/
theorem input_change_accepts_filter : ∃ a b old new,
    ofSchema (filterSchema [.ofType "size" strictSize .absent]) = .ok a ∧
    ofSchema (filterSchema [.ofType "size" strictSize (.filled "1"),
      .ofType "unit" unitName .absent]) = .ok b ∧
    a.inputFields? "Filter" = some old ∧ b.inputFields? "Filter" = some new ∧
    (∀ c ∈ a.changes .structural b, c.typeName = "Filter" → c.isBreaking = false) ∧
    ∀ given, Accepts old given → Accepts new given := by
  refine ⟨_, _, _, _, rfl, rfl, rfl, rfl, by decide, ?_⟩
  have h := input_change_accepts_iff (r := filterSchema [.ofType "size" strictSize .absent])
    (s := filterSchema [.ofType "size" strictSize (.filled "1"),
      .ofType "unit" unitName .absent]) rfl rfl (rfl : inputFields? _ "Filter" = some _) rfl
    (by decide)
  refine h.1.mpr ⟨?_, (h.2 (by decide)).1⟩
  unfold KeepsRequired
  decide

/-- A new field that needs a value and one that loses its default: neither is reported as breaking,
and the empty input object is no longer accepted. -/
theorem newly_required_unreported :
    (∃ a b old new,
      ofSchema (filterSchema [.ofType "unit" unitName .absent]) = .ok a ∧
      ofSchema (filterSchema [.ofType "unit" unitName .absent,
        .ofType "size" strictSize .absent]) = .ok b ∧
      a.inputFields? "Filter" = some old ∧ b.inputFields? "Filter" = some new ∧
      (∀ c ∈ a.changes .structural b, c.isBreaking = false) ∧
      Accepts old [] ∧ ¬ Accepts new []) ∧
    ∃ a b old new, ofSchema (filterSchema [.ofType "size" strictSize (.filled "1")]) = .ok a ∧
      ofSchema (filterSchema [.ofType "size" strictSize .absent]) = .ok b ∧
      a.inputFields? "Filter" = some old ∧ b.inputFields? "Filter" = some new ∧
      a.changes .structural b = [] ∧ Accepts old [] ∧ ¬ Accepts new [] := by
  constructor
  · refine ⟨_, _, _, _, rfl, rfl, rfl, rfl, by decide, ⟨nofun, by decide⟩, fun h => ?_⟩
    exact h.complete _ (List.mem_cons_of_mem _ List.mem_cons_self) (by decide) rfl
  · refine ⟨_, _, _, _, rfl, rfl, rfl, rfl, by decide, ⟨nofun, by decide⟩, fun h => ?_⟩
    exact h.complete _ List.mem_cons_self (by decide) rfl

end Model

end SchemaHistory
