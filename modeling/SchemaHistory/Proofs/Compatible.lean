import SchemaHistory.Compatibility.Metrics
import SchemaHistory.Proofs.Exactness
import SchemaHistory.Proofs.Values

namespace SchemaHistory

namespace TypeRef

/-- A change of type that breaks nobody: none at all, or one that the policy allows. -/
def MayBecome (policy : Policy) (position : Position) (before after : TypeRef) : Prop :=
  before.text = after.text ∨ isBreakingChange policy position before after = false

theorem interchangeable_iff {m n : String} :
    interchangeable m n = true ↔ Scalar.isBuiltIn m = true ∧ m = n := by
  simp [interchangeable]

/-- By name: the type is the same, or the same scalar with other wrappers. -/
theorem may_become_by_name {position : Position} {s t : TypeRef} (hs : s.Proper) (ht : t.Proper) :
    MayBecome .baseName position s t ↔
      s = t ∨ Scalar.isBuiltIn s.baseName = true ∧ s.baseName = t.baseName := by
  simp only [MayBecome, isBreakingChange, Bool.not_eq_false', interchangeable_iff]
  constructor
  · rintro (h | h)
    · exact .inl (text_determines hs.name ht.name h)
    · exact .inr h
  · rintro (rfl | h)
    · exact .inl rfl
    · exact .inr h

/-- By structure: no value is lost on the side where values are read. -/
theorem may_become_output {s t : TypeRef} (hs : s.Proper) (ht : t.Proper) :
    MayBecome .structural .output s t ↔ t.Within s := by
  simp only [MayBecome, isBreakingChange, Bool.not_eq_false',
    replaceable_output_iff hs.regular ht.regular]
  constructor
  · rintro (h | h)
    · exact text_determines hs.name ht.name h ▸ Within.refl _
    · exact h
  · exact .inr

theorem may_become_input {s t : TypeRef} (hs : s.Proper) (ht : t.Proper) :
    MayBecome .structural .input s t ↔ s.Within t := by
  simp only [MayBecome, isBreakingChange, Bool.not_eq_false',
    replaceable_input_iff hs.regular ht.regular]
  constructor
  · rintro (h | h)
    · exact text_determines hs.name ht.name h ▸ Within.refl _
    · exact h
  · exact .inr

theorem MayBecome.trans {policy : Policy} {position : Position} {r s t : TypeRef} (hr : r.Proper)
    (hs : s.Proper) (ht : t.Proper) (h1 : MayBecome policy position r s)
    (h2 : MayBecome policy position s t) : MayBecome policy position r t := by
  cases policy with
  | baseName =>
    rw [may_become_by_name hr hs] at h1
    rw [may_become_by_name hs ht] at h2
    rw [may_become_by_name hr ht]
    rcases h1 with rfl | ⟨hb, hn⟩
    · exact h2
    · rcases h2 with rfl | ⟨_, hm⟩
      · exact .inr ⟨hb, hn⟩
      · exact .inr ⟨hb, hn.trans hm⟩
  | structural =>
    cases position with
    | output =>
      rw [may_become_output hr hs] at h1
      rw [may_become_output hs ht] at h2
      exact (may_become_output hr ht).mpr (h2.trans h1)
    | input =>
      rw [may_become_input hr hs] at h1
      rw [may_become_input hs ht] at h2
      exact (may_become_input hr ht).mpr (h1.trans h2)

end TypeRef

/-- A type that clients of another can be moved to. -/
structure TypeDef.MayBecome (policy : Policy) (s t : TypeDef) : Prop where
  kind : s.kind = t.kind
  members : ∀ m ∈ s.members, ∃ n ∈ t.members, m.name = n.name ∧
    TypeRef.MayBecome policy s.kind.position m.type n.type
  values : ∀ v ∈ s.values, v ∈ t.values

theorem TypeDef.MayBecome.trans {policy : Policy} {r s t : TypeDef}
    (hr : ∀ x ∈ r.refs, x.Proper) (hs : ∀ x ∈ s.refs, x.Proper) (ht : ∀ x ∈ t.refs, x.Proper)
    (h1 : MayBecome policy r s) (h2 : MayBecome policy s t) : MayBecome policy r t := by
  refine ⟨h1.kind.trans h2.kind, ?_, fun v hv => h2.values v (h1.values v hv)⟩
  intro l hl
  obtain ⟨m, hm, hn, hlm⟩ := h1.members l hl
  obtain ⟨n, hn', hm', hmn⟩ := h2.members m hm
  rw [← h1.kind] at hmn
  exact ⟨n, hn', hn.trans hm', hlm.trans (hr _ (member_ref hl)) (hs _ (member_ref hm))
    (ht _ (member_ref hn')) hmn⟩

/-- Two types of one name have no breaking change just when clients can be moved. -/
theorem TypeDef.may_become_iff {policy : Policy} {s t : TypeDef} (ht : t.Built) :
    (∀ c, Change.OfTypes policy s t c → c.isBreaking = false) ↔ MayBecome policy s t := by
  constructor
  · intro h
    have hk : s.kind = t.kind := by
      by_contra hk
      exact absurd (h _ (.kindLeft hk)) (by simp [Change.typeRemoved])
    refine ⟨hk, ?_, ?_⟩
    · intro m hm
      by_cases hno : m.name ∈ t.members.map Member.name
      · obtain ⟨n, hn, he⟩ := List.mem_map.mp hno
        refine ⟨n, hn, he.symm, ?_⟩
        by_cases hx : m.type.text = n.type.text
        · exact .inl hx
        · exact .inr (h _ (.memberChanged hk hm hn he.symm hx))
      · exact absurd (h _ (.memberGone hk hm hno)) (by simp [Change.fieldRemoved])
    · intro v hv
      by_contra hno
      exact absurd (h _ (.valueGone hk hv hno)) (by simp [Change.enumValueRemoved])
  · intro h c hc
    cases hc with
    | kindLeft hk => exact absurd h.kind hk
    | kindCame _ => rfl
    | memberGone _ hm hno =>
      obtain ⟨n, hn, he, _⟩ := h.members _ hm
      exact absurd (List.mem_map.mpr ⟨n, hn, he.symm⟩) hno
    | memberNew _ _ _ => rfl
    | memberChanged _ hm hn he hx =>
      obtain ⟨k, hk, hek, hb⟩ := h.members _ hm
      obtain rfl := List.inj_on_of_nodup_map ht.members_distinct hk hn (hek.symm.trans he)
      exact hb.resolve_left hx
    | valueGone _ hv hno => exact absurd (h.values _ hv) hno
    | valueNew _ _ _ => rfl

namespace Model

/-- No change from one model to the other breaks clients. -/
def Compatible (policy : Policy) (a b : Model) : Prop :=
  ∀ c ∈ a.changes policy b, c.isBreaking = false

theorem compatible_iff {policy : Policy} {a b : Model} (hb : b.Built) :
    Compatible policy a b ↔
      ∀ s ∈ a.types, ∃ t ∈ b.types, s.name = t.name ∧ s.MayBecome policy t := by
  constructor
  · intro h s hs
    by_cases hn : s.name ∈ b.names
    · obtain ⟨t, ht, he⟩ := List.mem_map.mp hn
      refine ⟨t, ht, he.symm, ?_⟩
      apply (TypeDef.may_become_iff (hb.types_built t ht)).mp
      intro c hc
      exact h c ((mem_changes hb).mpr (.inr (.inl ⟨s, hs, t, ht, he.symm, hc⟩)))
    · exact absurd (h _ ((mem_changes hb).mpr (.inl ⟨_, mem_names hs, hn, rfl⟩)))
        (by simp [Change.typeRemoved])
  · intro h c hc
    rcases (mem_changes hb).mp hc with ⟨n, hn, hno, rfl⟩ | ⟨s, hs, t, ht, hn, hc⟩ | ⟨_, _, _, rfl⟩
    · obtain ⟨s, hs, rfl⟩ := List.mem_map.mp hn
      obtain ⟨t, ht, he, _⟩ := h s hs
      exact absurd (he ▸ mem_names ht) hno
    · obtain ⟨u, hu, he, hm⟩ := h s hs
      obtain rfl := List.inj_on_of_nodup_map hb.names_distinct hu ht (he.symm.trans hn)
      exact (TypeDef.may_become_iff (hb.types_built u hu)).mpr hm c hc
    · rfl

/-- A model of a document whose type references have proper names. -/
structure Named (m : Model) : Prop where
  built : m.Built
  names : ∀ r ∈ m.refs, isName r.baseName.toList = true

theorem Named.proper {m : Model} (h : m.Named) {t : TypeDef} (ht : t ∈ m.types) :
    ∀ r ∈ t.refs, r.Proper := by
  intro r hr
  have hm : r ∈ m.refs := List.mem_flatMap.mpr ⟨t, ht, hr⟩
  exact ⟨h.built.refs_regular r hm, h.names r hm⟩

theorem Compatible.trans {policy : Policy} {a b c : Model} (ha : a.Named) (hb : b.Named)
    (hc : c.Named) (h1 : Compatible policy a b) (h2 : Compatible policy b c) :
    Compatible policy a c := by
  rw [compatible_iff hb.built] at h1
  rw [compatible_iff hc.built] at h2
  rw [compatible_iff hc.built]
  intro r hr
  obtain ⟨s, hs, hn, hrs⟩ := h1 r hr
  obtain ⟨t, ht, hm, hst⟩ := h2 s hs
  exact ⟨t, ht, hn.trans hm, hrs.trans (ha.proper hr) (hb.proper hs) (hc.proper ht) hst⟩

/-- No two versions next to each other break clients. -/
def StepwiseCompatible (policy : Policy) (models : List Model) : Prop :=
  ∀ i (h : i + 1 < models.length), Compatible policy models[i] models[i + 1]

theorem count_breaking_zero {changes : List Change} :
    Change.countBreaking changes = 0 ↔ ∀ c ∈ changes, c.isBreaking = false := by
  simp [Change.countBreaking, List.filter_eq_nil_iff]

theorem stepwise_cons {policy : Policy} {a b : Model} {models : List Model} :
    StepwiseCompatible policy (a :: b :: models) ↔
      Compatible policy a b ∧ StepwiseCompatible policy (b :: models) := by
  constructor
  · intro h
    exact ⟨h 0 (by simp), fun i hi => h (i + 1) (by simpa using hi)⟩
  · rintro ⟨hab, h⟩ i hi
    cases i with
    | zero => exact hab
    | succ i => exact h i (by simpa using hi)

/-- The metrics of a sequence count no breaking change just when no step has one. -/
theorem steps_breaking_zero {policy : Policy} {index : Nat} {models : List Model} :
    (∀ x ∈ stepsFrom policy index models, x.breaking = 0) ↔ StepwiseCompatible policy models := by
  fun_induction stepsFrom policy index models with
  | case1 index a b models ih =>
    rw [stepwise_cons, ← ih, List.forall_mem_cons]
    simp only [Metrics.ofChanges, Figure.ofCount_nat, count_breaking_zero]
    rfl
  | case2 models index hne =>
    have hl : models.length < 2 := by
      match models with
      | [] => simp
      | [_] => simp
      | a :: b :: models => exact absurd rfl (hne a b models)
    simp only [List.not_mem_nil, false_implies, implies_true, true_iff]
    intro i hi
    omega

theorem compatible_of_stepwise {policy : Policy} {models : List Model}
    (hn : ∀ m ∈ models, m.Named) (h : StepwiseCompatible policy models) {i j : Nat} (hij : i < j)
    (hj : j < models.length) : Compatible policy models[i] models[j] := by
  induction j, hij using Nat.le_induction with
  | base => exact h i hj
  | succ j hij ih =>
    exact (ih (by omega)).trans (hn _ (List.getElem_mem _)) (hn _ (List.getElem_mem _))
      (hn _ (List.getElem_mem _)) (h j hj)

/-- Compatibility adds up along a history: where no step breaks clients, as its metrics tell, no
version breaks the clients of any earlier one. -/
theorem history_compatible (policy : Policy) {models : List Model} (h2 : 2 ≤ models.length)
    (built : ∀ m ∈ models, ∃ s, ofSchema s = .ok m)
    (names : ∀ m ∈ models, ∀ r ∈ m.refs, isName r.baseName.toList = true) :
    (∃ ms, steps policy models = .ok ms ∧
      ((∀ x ∈ ms, x.breaking = 0) ↔ StepwiseCompatible policy models)) ∧
    (StepwiseCompatible policy models →
      ∀ i j (_ : i < j) (hj : j < models.length), Compatible policy models[i] models[j]) := by
  have hn : ∀ m ∈ models, m.Named := by
    intro m hm
    obtain ⟨s, hs⟩ := built m hm
    exact ⟨built_of_schema hs, names m hm⟩
  refine ⟨⟨_, if_neg (by omega), steps_breaking_zero⟩, ?_⟩
  intro h i j hij hj
  exact compatible_of_stepwise hn h hij hj

/-- A query type whose only field has the given type. -/
def sizeModel (type : TypeRef) : Model :=
  ⟨[⟨"Query", none, .object [] [⟨"size", none, type, [], false, none⟩]⟩], "Query", none, none⟩

/-- A field that loses its mark and then becomes a list, by its named type only. -/
theorem history_compatible_sizes :
    StepwiseCompatible .baseName [sizeModel (.nonNull (.named "Int")), sizeModel (.named "Int"),
      sizeModel (.list (.named "Int"))] ∧
    Compatible .baseName (sizeModel (.nonNull (.named "Int")))
      (sizeModel (.list (.named "Int"))) := by
  have hstep : StepwiseCompatible .baseName [sizeModel (.nonNull (.named "Int")),
      sizeModel (.named "Int"), sizeModel (.list (.named "Int"))] := by
    refine stepwise_cons.mpr ⟨?_, stepwise_cons.mpr ⟨?_, ?_⟩⟩
    · unfold Compatible
      decide
    · unfold Compatible
      decide
    · intro i hi
      simp at hi
  have hsize (chain : RefChain) (type : TypeRef) (h : ofSchema (.ofTypes "Query"
      [.object "Query" [("size", chain)]]) = .ok (sizeModel type)) :
      ∃ s, ofSchema s = .ok (sizeModel type) := ⟨_, h⟩
  refine ⟨hstep, (history_compatible .baseName (by decide) ?_ (by decide)).2 hstep 0 2 (by decide)
    (by decide)⟩
  simp only [List.forall_mem_cons, List.not_mem_nil, false_implies, implies_true, and_true]
  exact ⟨hsize (.link "NON_NULL" none (.last "SCALAR" (some "Int"))) _ rfl,
    hsize (.last "SCALAR" (some "Int")) _ rfl,
    hsize (.link "LIST" none (.last "SCALAR" (some "Int"))) _ rfl⟩

end Model

end SchemaHistory
