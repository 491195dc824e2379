import Mathlib.Data.Multiset.MapFold
import SchemaHistory.Proofs.Building
import SchemaHistory.Proofs.Exactness
import SchemaHistory.Sdl.Printer

namespace SchemaHistory

namespace TypeDef

/-- Two types of one name are the same to a comparison: it looks at the kind, at the names and the
types of members, and at the values of an enum. -/
structure Alike (s t : TypeDef) : Prop where
  kind : s.kind = t.kind
  members : ∀ m ∈ s.members, ∃ n ∈ t.members, m.name = n.name ∧ m.type.text = n.type.text
  membersBack : ∀ n ∈ t.members, ∃ m ∈ s.members, m.name = n.name ∧ m.type.text = n.type.text
  values : ∀ v, v ∈ s.values ↔ v ∈ t.values

theorem alike_iff {s t : TypeDef} (ht : t.Built) : s.Alike t ↔ ∀ f, ¬ s.Differs t f := by
  constructor
  · intro h f hf
    cases hf with
    | kindLeft hk => exact hk h.kind
    | kindCame hk => exact hk h.kind
    | memberGone _ hm hno =>
      obtain ⟨n, hn, he, _⟩ := h.members _ hm
      exact hno (List.mem_map.mpr ⟨n, hn, he.symm⟩)
    | memberNew _ hn hno =>
      obtain ⟨m, hm, he, _⟩ := h.membersBack _ hn
      exact hno (List.mem_map.mpr ⟨m, hm, he⟩)
    | memberChanged _ hm hn he hx =>
      obtain ⟨k, hk, hek, hxk⟩ := h.members _ hm
      obtain rfl := List.inj_on_of_nodup_map ht.members_distinct hk hn (hek.symm.trans he)
      exact hx hxk
    | valueGone _ hv hno => exact hno ((h.values _).mp hv)
    | valueNew _ hv hno => exact hno ((h.values _).mpr hv)
  · intro h
    have hk : s.kind = t.kind := by
      by_contra hk
      exact h _ (.kindLeft hk)
    have hmatch : ∀ m ∈ s.members, ∀ n ∈ t.members, m.name = n.name →
        m.type.text = n.type.text := by
      intro m hm n hn he
      by_contra hx
      exact h _ (.memberChanged hk hm hn he hx)
    refine ⟨hk, fun m hm => ?_, fun n hn => ?_, fun v => ⟨fun hv => ?_, fun hv => ?_⟩⟩
    · by_cases hin : m.name ∈ t.members.map Member.name
      · obtain ⟨n, hn, he⟩ := List.mem_map.mp hin
        exact ⟨n, hn, he.symm, hmatch m hm n hn he.symm⟩
      · exact absurd (.memberGone hk hm hin) (h _)
    · by_cases hin : n.name ∈ s.members.map Member.name
      · obtain ⟨m, hm, he⟩ := List.mem_map.mp hin
        exact ⟨m, hm, he, hmatch m hm n hn he⟩
      · exact absurd (.memberNew hk hn hin) (h _)
    · by_contra hno
      exact h _ (.valueGone hk hv hno)
    · by_contra hno
      exact h _ (.valueNew hk hv hno)

end TypeDef

/-- Two models are the same to a comparison. -/
structure Model.Alike (a b : Model) : Prop where
  types : ∀ s ∈ a.types, ∃ t ∈ b.types, s.name = t.name ∧ s.Alike t
  typesBack : ∀ t ∈ b.types, ∃ s ∈ a.types, s.name = t.name ∧ s.Alike t

/-- A comparison reports nothing just when the two models are the same to it. -/
theorem Model.unchanged_iff {a b : Model} (hb : b.Built) {policy : Policy} :
    a.changes policy b = [] ↔ a.Alike b := by
  have hnone : a.changes policy b = [] ↔ ∀ f, ¬ a.Differs b f := by
    rw [← List.map_eq_nil_iff (f := Change.finding), List.eq_nil_iff_forall_not_mem]
    exact forall_congr' fun f => not_congr (mem_findings hb)
  rw [hnone]
  constructor
  · intro h
    have halike : ∀ s ∈ a.types, ∀ t ∈ b.types, s.name = t.name → s.Alike t :=
      fun s hs t ht hn => (TypeDef.alike_iff (hb.types_built t ht)).mpr
        fun f hf => h f (.shared hs ht hn hf)
    refine ⟨fun s hs => ?_, fun t ht => ?_⟩
    · by_cases hin : s.name ∈ b.names
      · obtain ⟨t, ht, hn⟩ := List.mem_map.mp hin
        exact ⟨t, ht, hn.symm, halike s hs t ht hn.symm⟩
      · exact absurd (.typeGone (List.mem_map_of_mem hs) hin) (h _)
    · by_cases hin : t.name ∈ a.names
      · obtain ⟨s, hs, hn⟩ := List.mem_map.mp hin
        exact ⟨s, hs, hn, halike s hs t ht hn⟩
      · exact absurd (.typeNew (List.mem_map_of_mem ht) hin) (h _)
  · intro h f hf
    cases hf with
    | typeGone hin hno =>
      obtain ⟨s, hs, rfl⟩ := List.mem_map.mp hin
      obtain ⟨t, ht, hn, _⟩ := h.types s hs
      exact hno (List.mem_map.mpr ⟨t, ht, hn.symm⟩)
    | typeNew hin hno =>
      obtain ⟨t, ht, rfl⟩ := List.mem_map.mp hin
      obtain ⟨s, hs, hn, _⟩ := h.typesBack t ht
      exact hno (List.mem_map.mpr ⟨s, hs, hn⟩)
    | shared hs ht hn hf =>
      obtain ⟨u, hu, hnu, ha⟩ := h.types _ hs
      obtain rfl := List.inj_on_of_nodup_map hb.names_distinct hu ht (hnu.symm.trans hn)
      exact (TypeDef.alike_iff (hb.types_built u hu)).mp ha _ hf

/-- What schema text shows of an argument or an input field: name, text of the type, default. -/
def Argument.shown (a : Argument) : String × String × Option String :=
  (a.name, a.type.text, a.defaultValue)

/-- What schema text shows of a field, whatever the order of its arguments. -/
def Field.shown (f : Field) : String × Multiset (String × String × Option String) × String :=
  (f.name, f.args.map Argument.shown, f.type.text)

namespace TypeDef

/-- The interfaces of an object type, or the members of a union. -/
def links (t : TypeDef) : List String :=
  match t.body with
  | .object interfaces _ => interfaces
  | .union members => members
  | _ => []

def fields (t : TypeDef) : List Field :=
  match t.body with
  | .object _ fields => fields
  | .interface fields => fields
  | _ => []

def inputs (t : TypeDef) : List Argument :=
  match t.body with
  | .inputObject fields => fields
  | _ => []

/-- What schema text shows of a definition when nothing is asked for, whatever the order of its
parts. -/
structure Shown where
  kind : TypeKind
  name : String
  links : Multiset String
  fields : Multiset (String × Multiset (String × String × Option String) × String)
  inputs : Multiset (String × String × Option String)
  values : Multiset String
  deriving DecidableEq

def shown (t : TypeDef) : Shown :=
  ⟨t.kind, t.name, t.links, t.fields.map Field.shown, t.inputs.map Argument.shown, t.values⟩

theorem shown_of_parts {s t : TypeDef} (hk : s.kind = t.kind) (hn : s.name = t.name)
    (hl : s.links.Perm t.links) (hf : (s.fields.map Field.shown).Perm (t.fields.map Field.shown))
    (hi : (s.inputs.map Argument.shown).Perm (t.inputs.map Argument.shown))
    (hv : s.values.Perm t.values) : s.shown = t.shown := by
  rw [shown, shown, hk, hn, Multiset.coe_eq_coe.mpr hl, Multiset.coe_eq_coe.mpr hf,
    Multiset.coe_eq_coe.mpr hi, Multiset.coe_eq_coe.mpr hv]

theorem members_split (t : TypeDef) :
    t.members = t.fields.map Field.member ++ t.inputs.map Argument.member := by
  obtain ⟨_, _, body⟩ := t
  cases body <;> simp [members, fields, inputs]

theorem kind_of_fields {t : TypeDef} {f : Field} (h : f ∈ t.fields) : t.kind ≠ .inputObject := by
  obtain ⟨_, _, body⟩ := t
  cases body with
  | inputObject fields => cases h
  | _ => exact nofun

theorem kind_of_inputs {t : TypeDef} {a : Argument} (h : a ∈ t.inputs) :
    t.kind = .inputObject := by
  obtain ⟨_, _, body⟩ := t
  cases body with
  | inputObject fields => rfl
  | _ => cases h

/-- The parts of two types of one name that comparisons do not look at are the same: interfaces and
members of unions, arguments of fields, defaults of input fields. -/
structure SameBeside (s t : TypeDef) : Prop where
  links : s.links.Perm t.links
  args : ∀ f ∈ s.fields, ∀ g ∈ t.fields, f.name = g.name →
    (f.args.map Argument.shown).Perm (g.args.map Argument.shown)
  defaults : ∀ a ∈ s.inputs, ∀ b ∈ t.inputs, a.name = b.name → a.defaultValue = b.defaultValue

end TypeDef

namespace Model

/-- What schema text shows of a model when nothing is asked for, whatever the order of its
definitions: the root types of operations and the definitions that are written. -/
def shown (m : Model) : List (String × String × String) × Multiset TypeDef.Shown :=
  (m.roots, (m.types.filter isWritten).map TypeDef.shown)

/-- The parts of two models that comparisons do not look at are the same. -/
structure SameBeside (a b : Model) : Prop where
  roots : a.roots = b.roots
  types : ∀ s ∈ a.types, ∀ t ∈ b.types, s.name = t.name → s.SameBeside t

end Model

theorem Sdl.description_hidden (margin : String) (description : Option String) :
    descriptionText Options.bare.descriptions margin description = "" := by
  unfold descriptionText
  split <;> rfl

theorem Sdl.deprecation_hidden (isDeprecated : Bool) (reason : Option String) :
    deprecationText .bare isDeprecated reason = "" :=
  rfl

/-- Lists whose elements have names of their own are the same up to order if each element has its
match in the other one. -/
theorem perm_of_matched {α β γ : Type} {f : α → β} {name : β → γ} {xs ys : List α}
    (hx : (xs.map fun x => name (f x)).Nodup) (hy : (ys.map fun y => name (f y)).Nodup)
    (h : ∀ x ∈ xs, ∃ y ∈ ys, f x = f y) (h' : ∀ y ∈ ys, ∃ x ∈ xs, f x = f y) :
    (xs.map f).Perm (ys.map f) := by
  have hdistinct {zs : List α} (hz : (zs.map fun z => name (f z)).Nodup) : (zs.map f).Nodup := by
    refine List.Nodup.of_map name ?_
    rwa [List.map_map]
  refine (List.perm_ext_iff_of_nodup (hdistinct hx) (hdistinct hy)).mpr fun b => ?_
  rw [List.mem_map, List.mem_map]
  constructor
  · rintro ⟨x, hm, rfl⟩
    obtain ⟨y, hn, he⟩ := h x hm
    exact ⟨y, hn, he.symm⟩
  · rintro ⟨y, hm, rfl⟩
    obtain ⟨x, hn, he⟩ := h' y hm
    exact ⟨x, hn, he⟩

/-- An element is found in a list with the same matches, by its name. -/
theorem matched_of_perm {α β γ : Type} {f : α → β} {name : β → γ} {xs ys : List α}
    (hy : (ys.map fun y => name (f y)).Nodup) (h : (xs.map f).Perm (ys.map f)) {x y : α}
    (hx : x ∈ xs) (hym : y ∈ ys) (hn : name (f x) = name (f y)) : f x = f y := by
  obtain ⟨z, hz, he⟩ := List.mem_map.mp (h.subset (List.mem_map_of_mem hx))
  have hzy : name (f z) = name (f y) := by rw [he, hn]
  rw [← he, List.inj_on_of_nodup_map hy hz hym hzy]

namespace TypeDef

variable {s t : TypeDef}

theorem fields_distinct (h : t.Built) : (t.fields.map fun f => (Field.shown f).1).Nodup := by
  have hd := h.members_distinct
  rw [members_split, List.map_append, List.map_map] at hd
  exact hd.of_append_left

theorem inputs_distinct (h : t.Built) : (t.inputs.map fun a => (Argument.shown a).1).Nodup := by
  have hd := h.members_distinct
  rw [members_split, List.map_append, List.map_map, List.map_map] at hd
  exact hd.of_append_right

theorem Alike.field (h : s.Alike t) {f : Field} (hf : f ∈ s.fields) :
    ∃ g ∈ t.fields, f.name = g.name ∧ f.type.text = g.type.text := by
  have hm : f.member ∈ s.members := by
    rw [members_split]
    exact List.mem_append_left _ (List.mem_map_of_mem hf)
  obtain ⟨n, hn, he⟩ := h.members _ hm
  rw [members_split] at hn
  rcases List.mem_append.mp hn with hn | hn
  · obtain ⟨g, hg, rfl⟩ := List.mem_map.mp hn
    exact ⟨g, hg, he⟩
  · obtain ⟨a, ha, _⟩ := List.mem_map.mp hn
    exact absurd (h.kind.trans (kind_of_inputs ha)) (kind_of_fields hf)

theorem Alike.input (h : s.Alike t) {a : Argument} (ha : a ∈ s.inputs) :
    ∃ b ∈ t.inputs, a.name = b.name ∧ a.type.text = b.type.text := by
  have hm : a.member ∈ s.members := by
    rw [members_split]
    exact List.mem_append_right _ (List.mem_map_of_mem ha)
  obtain ⟨n, hn, he⟩ := h.members _ hm
  rw [members_split] at hn
  rcases List.mem_append.mp hn with hn | hn
  · obtain ⟨f, hf, _⟩ := List.mem_map.mp hn
    exact absurd (h.kind.symm.trans (kind_of_inputs ha)) (kind_of_fields hf)
  · obtain ⟨b, hb, rfl⟩ := List.mem_map.mp hn
    exact ⟨b, hb, he⟩

theorem Alike.symm (h : s.Alike t) : t.Alike s where
  kind := h.kind.symm
  members m hm := by
    obtain ⟨n, hn, he, hx⟩ := h.membersBack m hm
    exact ⟨n, hn, he.symm, hx.symm⟩
  membersBack n hn := by
    obtain ⟨m, hm, he, hx⟩ := h.members n hn
    exact ⟨m, hm, he.symm, hx.symm⟩
  values v := (h.values v).symm

theorem SameBeside.symm (h : s.SameBeside t) : t.SameBeside s where
  links := h.links.symm
  args f hf g hg he := (h.args g hg f hf he.symm).symm
  defaults a ha b hb he := (h.defaults b hb a ha he.symm).symm

theorem Alike.fields_shown (h : s.Alike t) (hb : s.SameBeside t) :
    ∀ f ∈ s.fields, ∃ g ∈ t.fields, f.shown = g.shown := by
  intro f hf
  obtain ⟨g, hg, he, hx⟩ := h.field hf
  refine ⟨g, hg, ?_⟩
  rw [Field.shown, Field.shown, he, hx, Multiset.coe_eq_coe.mpr (hb.args f hf g hg he)]

theorem Alike.inputs_shown (h : s.Alike t) (hb : s.SameBeside t) :
    ∀ a ∈ s.inputs, ∃ b ∈ t.inputs, a.shown = b.shown := by
  intro a ha
  obtain ⟨b, hin, he, hx⟩ := h.input ha
  refine ⟨b, hin, ?_⟩
  rw [Argument.shown, Argument.shown, he, hx, hb.defaults a ha b hin he]

/-- Two types that are the same to a comparison are shown alike just when the parts beside are the
same. -/
theorem shown_iff (hs : s.Built) (ht : t.Built) (hn : s.name = t.name) (h : s.Alike t) :
    s.shown = t.shown ↔ s.SameBeside t := by
  constructor
  · intro he
    obtain ⟨_, _, hlinks, hfields, hinputs, _⟩ := Shown.mk.inj he
    refine ⟨Multiset.coe_eq_coe.mp hlinks, fun f hf g hg hfg => ?_, fun a ha b hb hab => ?_⟩
    · have hm := matched_of_perm (fields_distinct ht) (Multiset.coe_eq_coe.mp hfields) hf hg hfg
      exact Multiset.coe_eq_coe.mp (congrArg (·.2.1) hm)
    · have hm := matched_of_perm (inputs_distinct ht) (Multiset.coe_eq_coe.mp hinputs) ha hb hab
      exact congrArg (·.2.2) hm
  · intro hb
    have hfields : (s.fields.map Field.shown).Perm (t.fields.map Field.shown) := by
      refine perm_of_matched (fields_distinct hs) (fields_distinct ht) (h.fields_shown hb) ?_
      intro g hg
      obtain ⟨f, hf, he⟩ := h.symm.fields_shown hb.symm g hg
      exact ⟨f, hf, he.symm⟩
    have hinputs : (s.inputs.map Argument.shown).Perm (t.inputs.map Argument.shown) := by
      refine perm_of_matched (inputs_distinct hs) (inputs_distinct ht) (h.inputs_shown hb) ?_
      intro b hin
      obtain ⟨a, ha, he⟩ := h.symm.inputs_shown hb.symm b hin
      exact ⟨a, ha, he.symm⟩
    have hvalues : s.values.Perm t.values :=
      (List.perm_ext_iff_of_nodup hs.values_distinct ht.values_distinct).mpr h.values
    exact shown_of_parts h.kind hn hb.links hfields hinputs hvalues

theorem beside_of_scalar (hs : s.kind = .scalar) (ht : t.kind = .scalar) : s.SameBeside t := by
  obtain ⟨_, _, body⟩ := s
  obtain ⟨_, _, other⟩ := t
  cases body <;> cases hs
  cases other <;> cases ht
  exact ⟨List.Perm.refl _, nofun, nofun⟩

end TypeDef

namespace Model

variable {a b : Model}

theorem written_alike {s t : TypeDef} (hn : s.name = t.name) (h : s.Alike t) :
    isWritten s = isWritten t := by
  rw [isWritten, isWritten, h.kind, hn]

theorem written_distinct (h : a.Built) :
    ((a.types.filter isWritten).map fun t => t.shown.name).Nodup :=
  h.names_distinct.sublist (List.filter_sublist.map _)

/-- Two models that are the same to a comparison are shown alike just when the parts beside are the
same. -/
theorem shown_iff (ha : a.Built) (hb : b.Built) (h : a.Alike b) :
    a.shown = b.shown ↔ a.SameBeside b := by
  have halike : ∀ s ∈ a.types, ∀ t ∈ b.types, s.name = t.name → s.Alike t := by
    intro s hs t ht hn
    obtain ⟨u, hu, hnu, hsu⟩ := h.types s hs
    obtain rfl := List.inj_on_of_nodup_map hb.names_distinct hu ht (hnu.symm.trans hn)
    exact hsu
  have htypes : ∀ s ∈ a.types, ∀ t ∈ b.types, s.name = t.name →
      (s.shown = t.shown ↔ s.SameBeside t) := fun s hs t ht hn =>
    TypeDef.shown_iff (ha.types_built s hs) (hb.types_built t ht) hn (halike s hs t ht hn)
  constructor
  · intro he
    obtain ⟨hroots, hshown⟩ := Prod.mk.inj he
    refine ⟨hroots, fun s hs t ht hn => ?_⟩
    have hsame := halike s hs t ht hn
    by_cases hw : isWritten s = true
    · have hwt : isWritten t = true := (written_alike hn hsame).symm.trans hw
      refine (htypes s hs t ht hn).mp ?_
      exact matched_of_perm (written_distinct hb) (Multiset.coe_eq_coe.mp hshown)
        (List.mem_filter.mpr ⟨hs, hw⟩) (List.mem_filter.mpr ⟨ht, hwt⟩) hn
    · -- Scalars that are not written have no parts.
      have hk : s.kind = .scalar := by
        by_contra hk
        simp [isWritten, hk] at hw
      exact TypeDef.beside_of_scalar hk (hsame.kind.symm.trans hk)
  · intro hbeside
    have hperm : ((a.types.filter isWritten).map TypeDef.shown).Perm
        ((b.types.filter isWritten).map TypeDef.shown) := by
      refine perm_of_matched (written_distinct ha) (written_distinct hb) ?_ ?_
      · intro s hs
        obtain ⟨hs, hw⟩ := List.mem_filter.mp hs
        obtain ⟨t, ht, hn, hsame⟩ := h.types s hs
        have hwt : isWritten t = true := (written_alike hn hsame).symm.trans hw
        exact ⟨t, List.mem_filter.mpr ⟨ht, hwt⟩,
          (htypes s hs t ht hn).mpr (hbeside.types s hs t ht hn)⟩
      · intro t ht
        obtain ⟨ht, hw⟩ := List.mem_filter.mp ht
        obtain ⟨s, hs, hn, hsame⟩ := h.typesBack t ht
        have hws : isWritten s = true := (written_alike hn hsame).trans hw
        exact ⟨s, List.mem_filter.mpr ⟨hs, hws⟩,
          (htypes s hs t ht hn).mpr (hbeside.types s hs t ht hn)⟩
    rw [shown, shown, hbeside.roots, Multiset.coe_eq_coe.mpr hperm]

end Model

end SchemaHistory
