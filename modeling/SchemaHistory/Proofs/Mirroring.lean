import SchemaHistory.Proofs.ChangeOrder
import SchemaHistory.Proofs.Compatible

namespace SchemaHistory

/-- What a kind of change looks like from the other side. -/
def ChangeKind.mirror : ChangeKind → ChangeKind
  | typeAdded => typeRemoved
  | typeRemoved => typeAdded
  | fieldAdded => fieldRemoved
  | fieldRemoved => fieldAdded
  | fieldTypeChanged => fieldTypeChanged
  | enumValueAdded => enumValueRemoved
  | enumValueRemoved => enumValueAdded

/-- The same place, with the two sides exchanged. -/
def Finding.mirror (f : Finding) : Finding :=
  ⟨f.kind.mirror, f.typeName, f.memberName, f.after, f.before⟩

theorem Finding.mirror_mirror (f : Finding) : f.mirror.mirror = f := by
  obtain ⟨kind, _⟩ := f
  cases kind <;> rfl

theorem TypeDef.Differs.mirror {s t : TypeDef} (hn : s.name = t.name) {f : Finding}
    (h : s.Differs t f) : t.Differs s f.mirror := by
  cases h with
  | kindLeft hk => exact hn ▸ .kindCame (Ne.symm hk)
  | kindCame hk => exact hn ▸ .kindLeft (Ne.symm hk)
  | memberGone hk hm hno => exact hn ▸ .memberNew hk.symm hm hno
  | memberNew hk hm hno => exact hn ▸ .memberGone hk.symm hm hno
  | memberChanged hk hm hm' he hx =>
    have h := Differs.memberChanged hk.symm hm' hm he.symm hx.symm
    rwa [← hn, ← he] at h
  | valueGone hk hv hno => exact hn ▸ .valueNew hk.symm hv hno
  | valueNew hk hv hno => exact hn ▸ .valueGone hk.symm hv hno

namespace Model

theorem Differs.mirror {a b : Model} {f : Finding} (h : a.Differs b f) : b.Differs a f.mirror := by
  cases h with
  | typeGone hn hno => exact .typeNew hn hno
  | typeNew hn hno => exact .typeGone hn hno
  | shared hs ht hn h => exact .shared ht hs hn.symm (h.mirror hn)

theorem differs_mirror_iff {a b : Model} {f : Finding} : a.Differs b f.mirror ↔ b.Differs a f :=
  ⟨fun h => f.mirror_mirror ▸ h.mirror, Differs.mirror⟩

theorem findings_distinct (policy : Policy) {a b : Model} (ha : a.Built) (hb : b.Built) :
    ((a.changes policy b).map Change.finding).Nodup := by
  rw [List.Nodup, List.pairwise_map]
  apply (places_ascend policy ha hb).imp
  intro c d hlt he
  obtain ⟨hk, ht, hm, _⟩ := Finding.mk.inj he
  rw [place_congr hk ht hm] at hlt
  exact List.lt_irrefl _ hlt

theorem findings_mirrored (policy : Policy) {a b : Model} (ha : a.Built) (hb : b.Built) :
    ((b.changes policy a).map Change.finding).Perm
      ((a.changes policy b).map fun c => c.finding.mirror) := by
  have hmirror : (a.changes policy b).map (fun c => c.finding.mirror)
      = ((a.changes policy b).map Change.finding).map Finding.mirror := by
    rw [List.map_map]
    rfl
  have hinv : Function.Involutive Finding.mirror := Finding.mirror_mirror
  rw [hmirror]
  refine (List.perm_ext_iff_of_nodup (findings_distinct policy hb ha)
    ((findings_distinct policy ha hb).map hinv.injective)).mpr fun f => ?_
  rw [List.mem_map_of_involutive hinv, mem_findings ha, mem_findings hb, differs_mirror_iff]

end Model

/-- What is new breaks nobody, and what is gone breaks its clients. -/
def Change.Graded (c : Change) : Prop :=
  match c.kind with
  | .typeAdded | .fieldAdded | .enumValueAdded => c.severity = .minor ∧ c.isBreaking = false
  | .typeRemoved | .fieldRemoved | .enumValueRemoved =>
    c.severity = .critical ∧ c.isBreaking = true
  | .fieldTypeChanged => True

theorem Change.OfTypes.graded {policy : Policy} {s t : TypeDef} {c : Change}
    (h : OfTypes policy s t c) : c.Graded := by
  cases h with
  | memberChanged _ _ _ _ _ => trivial
  | _ => exact ⟨rfl, rfl⟩

theorem TypeRef.base_name_breaking_comm (p q : Position) (s t : TypeRef) :
    isBreakingChange .baseName p s t = isBreakingChange .baseName q t s := by
  have h : interchangeable s.baseName t.baseName = interchangeable t.baseName s.baseName := by
    rw [Bool.eq_iff_iff, interchangeable_iff, interchangeable_iff]
    constructor
    · rintro ⟨hb, he⟩
      exact ⟨he ▸ hb, he.symm⟩
    · rintro ⟨hb, he⟩
      exact ⟨he ▸ hb, he.symm⟩
  exact congrArg not h

namespace Model

/-- A changed type is that of a member of both versions of one type. -/
theorem of_type_changed {policy : Policy} {a b : Model} (hb : b.Built) {c : Change}
    (hc : c ∈ a.changes policy b) (hk : c.kind = .fieldTypeChanged) :
    ∃ s ∈ a.types, ∃ t ∈ b.types, s.name = t.name ∧ ∃ m ∈ s.members, ∃ n ∈ t.members,
      m.name = n.name ∧ c = .fieldTypeChanged
        (TypeRef.isBreakingChange policy s.kind.position m.type n.type) s.name m.name m.type.text
        n.type.text := by
  rcases (mem_changes hb).mp hc with ⟨_, _, _, rfl⟩ | ⟨s, hs, t, ht, hn, h⟩ | ⟨_, _, _, rfl⟩
  · contradiction
  · cases h with
    | memberChanged _ hm hm' he _ => exact ⟨s, hs, t, ht, hn, _, hm, _, hm', he, rfl⟩
    | _ => contradiction
  · contradiction

theorem judged_alike {a b : Model} (ha : a.Built) (hb : b.Built) {c d : Change}
    (hc : c ∈ a.changes .baseName b) (hd : d ∈ b.changes .baseName a)
    (hk : c.kind = .fieldTypeChanged) (hm : d.finding = c.finding.mirror) :
    d.severity = c.severity ∧ d.isBreaking = c.isBreaking := by
  obtain ⟨s, hs, t, ht, hn, m, hms, n, hnt, he, rfl⟩ := of_type_changed hb hc hk
  obtain ⟨hkind, htype, hmember, _⟩ := Finding.mk.inj hm
  obtain ⟨t', ht', s', hs', hn', n', hn't, m', hm's, he', rfl⟩ := of_type_changed ha hd hkind
  have htt : t' = t := List.inj_on_of_nodup_map hb.names_distinct ht' ht (htype.trans hn)
  have hss : s' = s := List.inj_on_of_nodup_map ha.names_distinct hs' hs (hn'.symm.trans htype)
  subst htt hss
  have hmn : n'.name = m.name := Option.some.inj hmember
  have hnn : n' = n := List.inj_on_of_nodup_map (hb.types_built _ ht).members_distinct hn't hnt
    (hmn.trans he)
  have hmm : m' = m := List.inj_on_of_nodup_map (ha.types_built _ hs).members_distinct hm's hms
    (he'.symm.trans hmn)
  subst hnn hmm
  have hb := TypeRef.base_name_breaking_comm t'.kind.position s'.kind.position n'.type m'.type
  exact ⟨by simp only [Change.fieldTypeChanged, hb], hb⟩

theorem changes_graded {policy : Policy} {a b : Model} (hb : b.Built) :
    ∀ c ∈ a.changes policy b, c.Graded := by
  intro c hc
  rcases (mem_changes hb).mp hc with ⟨_, _, _, rfl⟩ | ⟨_, _, _, _, _, h⟩ | ⟨_, _, _, rfl⟩
  · exact ⟨rfl, rfl⟩
  · exact h.graded
  · exact ⟨rfl, rfl⟩

/-- Comparing the other way round finds the same differences from the other side, up to order. What
is new or gone is judged by its kind alone, and a change of type that is judged by name is judged
alike from both sides. -/
theorem changes_mirrored {r s : Introspection.Schema} {a b : Model} (policy : Policy)
    (ha : ofSchema r = .ok a) (hb : ofSchema s = .ok b) :
    ((b.changes policy a).map Change.finding).Perm
      ((a.changes policy b).map fun c => c.finding.mirror) ∧
    (policy = .baseName → ∀ c ∈ a.changes policy b, ∀ d ∈ b.changes policy a,
      c.kind = .fieldTypeChanged → d.finding = c.finding.mirror →
      d.severity = c.severity ∧ d.isBreaking = c.isBreaking) ∧
    ∀ c ∈ a.changes policy b ++ b.changes policy a, c.Graded := by
  have ha := built_of_schema ha
  have hb := built_of_schema hb
  refine ⟨findings_mirrored policy ha hb, ?_, ?_⟩
  · rintro rfl c hc d hd hk hm
    exact judged_alike ha hb hc hd hk hm
  · exact List.forall_mem_append.mpr ⟨changes_graded hb, changes_graded ha⟩

/-- A field that loses its mark, a field in place of another, and a type of another kind, from the
other side. -/
theorem changes_mirrored_shapes : ∃ a b,
    ofSchema shapesBefore = .ok a ∧ ofSchema shapesAfter = .ok b ∧
    ((b.changes .baseName a).map Change.finding).Perm
      [⟨.fieldAdded, "Query", some "size", none, none⟩,
        ⟨.fieldTypeChanged, "Query", some "shape", some "Shape", some "Shape!"⟩,
        ⟨.fieldRemoved, "Query", some "area", none, none⟩,
        ⟨.typeAdded, "Shape", none, none, none⟩, ⟨.typeRemoved, "Shape", none, none, none⟩] ∧
    ∀ c ∈ a.changes .baseName b ++ b.changes .baseName a, c.Graded := by
  refine ⟨_, _, rfl, rfl, ?_⟩
  obtain ⟨hp, _, hg⟩ := changes_mirrored (r := shapesBefore) (s := shapesAfter) .baseName rfl rfl
  exact ⟨hp, hg⟩

end Model

end SchemaHistory
