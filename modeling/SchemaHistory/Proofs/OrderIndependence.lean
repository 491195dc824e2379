import SchemaHistory.Proofs.Comparisons
import SchemaHistory.Proofs.Reordering
import SchemaHistory.Report.Basic

namespace SchemaHistory

/-- Two types that are the same to a comparison, up to the order of their parts. -/
structure TypeDef.Reordered (t u : TypeDef) : Prop where
  name : t.name = u.name
  kind : t.kind = u.kind
  members : t.members.Perm u.members
  found : ∀ name, t.members.find? (fun m => m.name = name) = u.members.find? fun m => m.name = name
  values : t.values.Perm u.values

theorem TypeDef.Reordered.refl (t : TypeDef) : t.Reordered t :=
  ⟨rfl, rfl, .refl _, fun _ => rfl, .refl _⟩

/-- Two models that are the same to a comparison, up to order. -/
structure Model.Reordered (a b : Model) : Prop where
  types : Rearranged TypeDef.Reordered a.types b.types
  found : ∀ name, Option.Rel TypeDef.Reordered (a.find? name) (b.find? name)

theorem Model.Reordered.refl (a : Model) : a.Reordered a where
  types := .refl TypeDef.Reordered.refl _
  found name := by
    cases a.find? name with
    | none => exact .none
    | some t => exact .some (.refl t)

theorem Argument.Of.member_eq {raw : Introspection.InputValue} {a b : Argument} (ha : a.Of raw)
    (hb : b.Of raw) : a.member = b.member := by
  have ht := Except.ok.inj (ha.type.symm.trans hb.type)
  rw [Argument.member, Argument.member, ha.name, hb.name, ht]

theorem Field.Of.member_eq {raw raw' : Introspection.Field} (hr : raw.Reordered raw') {f g : Field}
    (hf : f.Of raw) (hg : g.Of raw') : f.member = g.member := by
  rw [← hr.rest] at hg
  have ht := Except.ok.inj (hf.type.symm.trans hg.type)
  rw [Field.member, Field.member, hf.name, hg.name, ht]

namespace TypeDef

theorem Of.kind_eq {raw raw' : Introspection.TypeEntry} (hr : raw.Reordered raw') {t u : TypeDef}
    (ht : t.Of raw) (hu : u.Of raw') : t.kind = u.kind := by
  have hk := TypeKind.of_text_iff.mpr (ht.kind.trans (hr.kind.trans hu.kind.symm))
  rw [TypeKind.of_text_iff.mpr rfl] at hk
  exact (Option.some.inj hk).symm

/-- The parts of two types that only differ in order. -/
theorem Of.parts_perm {raw raw' : Introspection.TypeEntry} (hr : raw.Reordered raw')
    {t u : TypeDef} (ht : t.Of raw) (hu : u.Of raw') :
    t.members.Perm u.members ∧ t.values.Perm u.values := by
  have hk := Of.kind_eq hr ht hu
  have hfields {fs gs : List Field} (hf : List.Forall₂ Field.Of raw.fields.items fs)
      (hg : List.Forall₂ Field.Of raw'.fields.items gs) :
      (fs.map Field.member).Perm (gs.map Field.member) :=
    (hr.fields.items_rearranged.made (q := fun f g => f.member = g.member) hf hg
      fun _ _ _ _ h hf hg => Field.Of.member_eq h hf hg).map_perm fun _ _ h => h
  have ht := ht.body
  have hu := hu.body
  obtain ⟨_, _, body⟩ := t
  obtain ⟨_, _, body'⟩ := u
  cases body with
  | object _ fs =>
    cases body' <;> cases hk
    exact ⟨hfields ht.2 hu.2, .nil⟩
  | interface fs =>
    cases body' <;> cases hk
    exact ⟨hfields ht hu, .nil⟩
  | inputObject fs =>
    cases body' <;> cases hk
    have hm := (Rearranged.of_perm hr.inputFields.items_perm).made
      (q := fun a b => a.member = b.member) ht hu
      fun _ _ _ _ h ha hb => Argument.Of.member_eq ha (h ▸ hb)
    exact ⟨hm.map_perm fun _ _ h => h, .nil⟩
  | enum vs =>
    cases body' <;> cases hk
    have hv := (Rearranged.of_perm hr.enumValues.items_perm).made
      (q := fun v w => v.name = w.name) ht hu
      fun _ _ _ _ h hv hw => hv.name.trans (h ▸ hw.name.symm)
    exact ⟨.nil, hv.map_perm fun _ _ h => h⟩
  | union _ =>
    cases body' <;> cases hk
    exact ⟨.nil, .nil⟩
  | scalar =>
    cases body' <;> cases hk
    exact ⟨.nil, .nil⟩

theorem build_reordered {raw raw' : Introspection.TypeEntry} (hr : raw.Reordered raw')
    {t u : TypeDef} (ht : build raw = .ok t) (hu : build raw' = .ok u) : t.Reordered u := by
  have hbt := (build_built ht).2
  have hbu := (build_built hu).2
  have ht := (build_iff.mp ht).2
  have hu := (build_iff.mp hu).2
  obtain ⟨hm, hv⟩ := Of.parts_perm hr ht hu
  refine ⟨ht.name.trans (hr.name.trans hu.name.symm), Of.kind_eq hr ht hu, hm, fun name => ?_, hv⟩
  ext m
  rw [find_named_iff hbt.members_distinct, find_named_iff hbu.members_distinct, hm.mem_iff]

end TypeDef

namespace Model

variable {a a' b b' : Model}

theorem reordered_of_types (ha : a.names.Nodup) (ha' : a'.names.Nodup)
    (h : Rearranged TypeDef.Reordered a.types a'.types) : a.Reordered a' where
  types := h
  found name := by
    cases hf : a.find? name with
    | none =>
      have hn : a.names.Perm a'.names := h.map_perm fun _ _ h => h.name
      rw [find_none_iff.mpr (hn.mem_iff.not.mp (find_none_iff.mp hf))]
      exact .none
    | some t =>
      obtain ⟨ht, rfl⟩ := (find_iff ha).mp hf
      obtain ⟨u, hu, htu⟩ := h.flip.matched ht
      rw [(find_iff ha').mpr ⟨hu, htu.name.symm⟩]
      exact .some htu

theorem types_of_entries {s : Introspection.Schema} (h : ofSchema s = .ok a) :
    List.Forall₂ (fun raw t => TypeDef.build raw = .ok t) (Introspection.ownEntries s.types)
      a.types := by
  obtain ⟨hw, ho⟩ := of_schema_iff.mp h
  simp only [TypeDef.build_iff, List.forall₂_and_left]
  exact ⟨hw.entries, ho.types⟩

theorem of_schema_reordered {s s' : Introspection.Schema} (h : s.Reordered s')
    (ha : ofSchema s = .ok a) (ha' : ofSchema s' = .ok a') : a.Reordered a' :=
  reordered_of_types (built_of_schema ha).names_distinct (built_of_schema ha').names_distinct
    ((Introspection.own_entries_rearranged h.types).made (types_of_entries ha)
      (types_of_entries ha') fun _ _ _ _ h ht hu => TypeDef.build_reordered h ht hu)

end Model

namespace Change

theorem names_only_perm {names names' others others' : List String} (hn : names.Perm names')
    (ho : others.Perm others') :
    (namesOnlyIn names others).Perm (namesOnlyIn names' others') := by
  have he : namesOnlyIn names others = namesOnlyIn names others' :=
    List.filter_congr fun n _ => by rw [ho.contains_eq]
  rw [he]
  exact hn.filter _

theorem of_types_perm (policy : Policy) {s s' t t' : TypeDef} (hs : s.Reordered s')
    (ht : t.Reordered t') : (ofTypes policy s t).Perm (ofTypes policy s' t') := by
  rw [of_types_eq, of_types_eq, ← hs.kind, ← ht.kind, ← hs.name, ← ht.name]
  split
  · -- What becomes of a member depends on the new ones through look-ups only.
    have hof : ofMember? policy s.kind.position s.name t.members
        = ofMember? policy s.kind.position s.name t'.members := by
      funext m
      rw [ofMember?, ofMember?, ht.found]
    have hmembers : (ofMembers policy s.kind.position s.name s.members t.members).Perm
        (ofMembers policy s.kind.position s.name s'.members t'.members) := by
      rw [ofMembers, ofMembers, hof]
      exact (hs.members.filterMap _).append
        ((names_only_perm (ht.members.map _) (hs.members.map _)).map _)
    have hvalues : (valueChanges s.name s.values t.values).Perm
        (valueChanges s.name s'.values t'.values) :=
      ((names_only_perm hs.values ht.values).map _).append
        ((names_only_perm ht.values hs.values).map _)
    exact hmembers.append hvalues
  · exact .refl _

theorem of_shared_perm (policy : Policy) {b b' : Model} (hb : b.Reordered b') {s s' : TypeDef}
    (hs : s.Reordered s') : (ofShared policy b s).Perm (ofShared policy b' s') := by
  have hf := hb.found s.name
  rw [ofShared, ofShared, ← hs.name]
  revert hf
  cases b.find? s.name <;> cases b'.find? s.name <;> intro hf <;> cases hf
  · exact .nil
  · exact of_types_perm policy hs ‹_›

end Change

/-- Comparing models in another order gives the changes in another order. -/
theorem Model.changes_perm (policy : Policy) {a a' b b' : Model} (ha : a.Reordered a')
    (hb : b.Reordered b') : (a.changes policy b).Perm (a'.changes policy b') := by
  have han : a.names.Perm a'.names := ha.types.map_perm fun _ _ h => h.name
  have hbn : b.names.Perm b'.names := hb.types.map_perm fun _ _ h => h.name
  have hshared := ha.types.flatMap_perm fun _ _ h => Change.of_shared_perm policy hb h
  exact (((Change.names_only_perm han hbn).map _).append hshared).append
    ((Change.names_only_perm hbn han).map _)

/-- Two reports that only differ in the order of changes. -/
structure Report.Reordered (x y : Report Nat) : Prop where
  changes : x.changes.Perm y.changes
  rest : { x with changes := y.changes } = y

/-- The same changes in any order: they come to the same numbers and the same advice. -/
structure Change.Reordered (xs ys : List Change) : Prop where
  changes : xs.Perm ys
  metrics (index : Nat) : Metrics.ofChanges index xs = Metrics.ofChanges index ys
  reports (key timestamp : String) (previous current : Binary64) (least : Severity) :
    (Report.ofChanges key timestamp previous current least xs).Reordered
      (Report.ofChanges key timestamp previous current least ys)

namespace Change

variable {xs ys : List Change}

theorem count_breaking_perm (h : xs.Perm ys) : countBreaking xs = countBreaking ys :=
  (h.filter _).length_eq

theorem score_perm (h : xs.Perm ys) : score xs = score ys := by
  rw [score, score, h.isEmpty_eq, h.length_eq, count_breaking_perm h]

theorem counts_perm (h : xs.Perm ys) : Report.Counts.ofChanges xs = .ofChanges ys := by
  have hcount (s : Severity) : (xs.filter fun c => c.severity = s).length
      = (ys.filter fun c => c.severity = s).length := (h.filter _).length_eq
  simp only [Report.Counts.ofChanges, hcount, h.length_eq, count_breaking_perm h]

theorem suggestions_perm (h : xs.Perm ys) : suggestions xs = suggestions ys := by
  have hany (p : Change → Bool) : xs.any p = ys.any p := h.any_eq
  simp only [suggestions, hany]

theorem Reordered.of_perm (h : xs.Perm ys) : Reordered xs ys where
  changes := h
  metrics index := by
    simp only [Metrics.ofChanges, h.length_eq, count_breaking_perm h, score_perm h]
  reports key timestamp previous current least := by
    have hlisted : (atLeast least xs).Perm (atLeast least ys) := h.filter _
    have hany : xs.any isBreaking = ys.any isBreaking := h.any_eq
    exact ⟨hlisted, by simp only [Report.ofChanges, counts_perm hlisted, score_perm h, hany,
      suggestions_perm h]⟩

end Change

namespace Model

theorem exists_of_reordered {s s' : Introspection.Schema} (h : s.Reordered s') {a : Model}
    (ha : ofSchema s = .ok a) : ∃ a', ofSchema s' = .ok a' := by
  have hw := (of_schema_iff.mp ha).1.reordered h
  obtain ⟨a', ho⟩ := exists_of hw
  exact ⟨a', of_schema_iff.mpr ⟨hw, ho⟩⟩

/-- The order of a document does not matter: whether a model can be built of it, that nothing has
changed where only the order has, and what differs from a third model, on either side. -/
theorem order_irrelevant {s s' : Introspection.Schema} (h : s.Reordered s') :
    ((∃ a, ofSchema s = .ok a) ↔ ∃ a', ofSchema s' = .ok a') ∧
    ∀ a a', ofSchema s = .ok a → ofSchema s' = .ok a' → ∀ policy,
      a.changes policy a' = [] ∧ a'.changes policy a = [] ∧
      ∀ t : Model, Change.Reordered (a.changes policy t) (a'.changes policy t) ∧
        Change.Reordered (t.changes policy a) (t.changes policy a') := by
  refine ⟨⟨?_, ?_⟩, fun a a' ha ha' policy => ?_⟩
  · rintro ⟨a, ha⟩
    exact exists_of_reordered h ha
  · rintro ⟨a', ha'⟩
    exact exists_of_reordered h.symm ha'
  · have hr := of_schema_reordered h ha ha'
    have hself := changes_self (built_of_schema ha) policy
    have hto := changes_perm policy (.refl a) hr
    have hback := changes_perm policy hr (.refl a)
    rw [hself] at hto hback
    refine ⟨hto.nil_eq.symm, hback.nil_eq.symm, fun t => ⟨?_, ?_⟩⟩
    · exact .of_perm (changes_perm policy hr (.refl t))
    · exact .of_perm (changes_perm policy (.refl t) hr)

/-- Two types with two fields each, the first of them with two arguments, and two enum values. -/
def pairs (order : {α : Type} → α → α → List α) : Introspection.Schema :=
  let number : Introspection.RawRef := .ofChain (.last "SCALAR" (some "Int"))
  let input (name : String) : Introspection.InputValue := ⟨name, .absent, number, .absent⟩
  let value (name : String) : Introspection.EnumValue := ⟨name, .absent, .absent, .absent⟩
  let posts : Introspection.Field := ⟨"posts", .absent,
    .filled (order (input "first") (input "after")), number, .absent, .absent⟩
  let query : Introspection.TypeEntry := ⟨"OBJECT", "Query", .absent,
    .filled (order posts (.ofType "users" (.last "SCALAR" (some "Int")))), .absent, .absent,
    .absent, .absent⟩
  let filter : Introspection.TypeEntry := ⟨"INPUT_OBJECT", "Filter", .absent, .absent,
    .filled (order (input "least") (input "most")), .absent, .absent, .absent⟩
  let state : Introspection.TypeEntry := ⟨"ENUM", "State", .absent, .absent, .absent, .absent,
    .filled (order (value "DRAFT") (value "LIVE")), .absent⟩
  ⟨.filled ⟨.filled "Query"⟩, .absent, .absent, order query filter ++ [state]⟩

theorem order_irrelevant_pairs : ∃ a a', ofSchema (pairs fun x y => [x, y]) = .ok a ∧
    ofSchema (pairs fun x y => [y, x]) = .ok a' ∧ a.changes .structural a' = [] ∧
    ∃ t : Model, a.changes .structural t ≠ a'.changes .structural t ∧
      Change.Reordered (a.changes .structural t) (a'.changes .structural t) := by
  have hr : (pairs fun x y => [x, y]).Reordered (pairs fun x y => [y, x]) := by
    refine ⟨⟨_, .cons ⟨?_, .absent, .absent, rfl⟩
      (.cons ⟨.absent, .filled (.swap _ _ _), .absent, rfl⟩
        (.cons ⟨.absent, .absent, .filled (.swap _ _ _), rfl⟩ .nil)), .swap _ _ _⟩, rfl⟩
    exact .filled ⟨_, .cons ⟨.filled (.swap _ _ _), rfl⟩
      (.cons ⟨.absent, rfl⟩ .nil), .swap _ _ _⟩
  refine ⟨_, _, rfl, rfl, ?_⟩
  obtain ⟨hself, _, ht⟩ := (order_irrelevant hr).2 _ _ rfl rfl .structural
  exact ⟨hself, sizeModel (.named "Int"), by decide, (ht _).1⟩

end Model

end SchemaHistory
