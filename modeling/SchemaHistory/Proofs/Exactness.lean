import SchemaHistory.Proofs.Built

namespace SchemaHistory

/-- What a change says, apart from how it is judged and worded. -/
structure Finding where
  kind : ChangeKind
  typeName : String
  memberName : Option String
  before : Option String
  after : Option String
deriving DecidableEq

def Change.finding (c : Change) : Finding :=
  ⟨c.kind, c.typeName, c.memberName, c.before, c.after⟩

/-- The differences between two types of one name. -/
inductive TypeDef.Differs (s t : TypeDef) : Finding → Prop where
  | kindLeft : s.kind ≠ t.kind → Differs s t ⟨.typeRemoved, s.name, none, none, none⟩
  | kindCame : s.kind ≠ t.kind → Differs s t ⟨.typeAdded, s.name, none, none, none⟩
  | memberGone {m : Member} : s.kind = t.kind → m ∈ s.members →
    m.name ∉ t.members.map Member.name →
    Differs s t ⟨.fieldRemoved, s.name, some m.name, none, none⟩
  | memberNew {n : Member} : s.kind = t.kind → n ∈ t.members →
    n.name ∉ s.members.map Member.name →
    Differs s t ⟨.fieldAdded, s.name, some n.name, none, none⟩
  | memberChanged {m n : Member} : s.kind = t.kind → m ∈ s.members → n ∈ t.members →
    m.name = n.name → m.type.text ≠ n.type.text →
    Differs s t ⟨.fieldTypeChanged, s.name, some m.name, some m.type.text, some n.type.text⟩
  | valueGone {v : String} : s.kind = t.kind → v ∈ s.values → v ∉ t.values →
    Differs s t ⟨.enumValueRemoved, s.name, some v, none, none⟩
  | valueNew {v : String} : s.kind = t.kind → v ∈ t.values → v ∉ s.values →
    Differs s t ⟨.enumValueAdded, s.name, some v, none, none⟩

/-- The differences between two models. -/
inductive Model.Differs (a b : Model) : Finding → Prop where
  | typeGone {name : String} : name ∈ a.names → name ∉ b.names →
    Differs a b ⟨.typeRemoved, name, none, none, none⟩
  | typeNew {name : String} : name ∈ b.names → name ∉ a.names →
    Differs a b ⟨.typeAdded, name, none, none, none⟩
  | shared {s t : TypeDef} {f : Finding} : s ∈ a.types → t ∈ b.types → s.name = t.name →
    s.Differs t f → Differs a b f

/-- Which side of a comparison clients of a kind of type stand on. -/
def TypeKind.position : TypeKind → Position
  | inputObject => .input
  | _ => .output

namespace Change

def valueChanges (owner : String) (old new : List String) : List Change :=
  (namesOnlyIn old new).map (enumValueRemoved owner)
    ++ (namesOnlyIn new old).map (enumValueAdded owner)

/-- All kinds of types are compared in one way: by their members, and by their values. -/
theorem of_types_eq (policy : Policy) (s t : TypeDef) :
    ofTypes policy s t =
      if s.kind = t.kind then
        ofMembers policy s.kind.position s.name s.members t.members
          ++ valueChanges s.name s.values t.values
      else [typeRemoved s.name, typeAdded t.name] := by
  obtain ⟨sn, sd, sb⟩ := s
  obtain ⟨tn, td, tb⟩ := t
  cases sb <;> cases tb <;>
    simp [ofTypes, TypeDef.kind, TypeBody.kind, TypeKind.position, TypeDef.members,
      TypeDef.values, valueChanges, ofMembers, namesOnlyIn, ofEnumValues]

theorem mem_names_only {name : String} {names others : List String} :
    name ∈ namesOnlyIn names others ↔ name ∈ names ∧ name ∉ others := by
  simp [namesOnlyIn]

/-- What becomes of a member: nothing, or one of two changes. -/
theorem of_member_cases {policy : Policy} {position : Position} {owner : String}
    {after : List Member} (hd : (after.map Member.name).Nodup) {m : Member} {c : Change} :
    ofMember? policy position owner after m = some c ↔
      (m.name ∉ after.map Member.name ∧ c = fieldRemoved position owner m.name) ∨
      ∃ n ∈ after, m.name = n.name ∧ m.type.text ≠ n.type.text ∧
        c = fieldTypeChanged (TypeRef.isBreakingChange policy position m.type n.type) owner
          m.name m.type.text n.type.text := by
  unfold ofMember?
  cases hf : after.find? fun n => n.name = m.name with
  | none =>
    have hno : ∀ n ∈ after, n.name ≠ m.name := by simpa using List.find?_eq_none.mp hf
    constructor
    · rintro ⟨⟩
      exact .inl ⟨by simpa using hno, rfl⟩
    · rintro (⟨_, rfl⟩ | ⟨n, hn, he, _⟩)
      · rfl
      · exact absurd he.symm (hno n hn)
  | some n =>
    obtain ⟨hn, hname⟩ := (find_named_iff hd).mp hf
    have hu : ∀ k ∈ after, m.name = k.name → k = n := fun k hk he =>
      List.inj_on_of_nodup_map hd hk hn (he.symm.trans hname.symm)
    constructor
    · intro h
      simp only at h
      split at h
      · contradiction
      · rename_i ht
        cases h
        exact .inr ⟨n, hn, hname.symm, ht, rfl⟩
    · rintro (⟨hno, _⟩ | ⟨k, hk, he, ht, rfl⟩)
      · exact absurd (List.mem_map.mpr ⟨n, hn, hname⟩) hno
      · obtain rfl := hu k hk he
        simp [ht]

/-- The changes between two types of one name, in full. -/
inductive OfTypes (policy : Policy) (s t : TypeDef) : Change → Prop where
  | kindLeft : s.kind ≠ t.kind → OfTypes policy s t (typeRemoved s.name)
  | kindCame : s.kind ≠ t.kind → OfTypes policy s t (typeAdded t.name)
  | memberGone {m : Member} : s.kind = t.kind → m ∈ s.members →
    m.name ∉ t.members.map Member.name →
    OfTypes policy s t (fieldRemoved s.kind.position s.name m.name)
  | memberNew {n : Member} : s.kind = t.kind → n ∈ t.members →
    n.name ∉ s.members.map Member.name → OfTypes policy s t (fieldAdded s.name n.name)
  | memberChanged {m n : Member} : s.kind = t.kind → m ∈ s.members → n ∈ t.members →
    m.name = n.name → m.type.text ≠ n.type.text →
    OfTypes policy s t
      (fieldTypeChanged (TypeRef.isBreakingChange policy s.kind.position m.type n.type) s.name
        m.name m.type.text n.type.text)
  | valueGone {v : String} : s.kind = t.kind → v ∈ s.values → v ∉ t.values →
    OfTypes policy s t (enumValueRemoved s.name v)
  | valueNew {v : String} : s.kind = t.kind → v ∈ t.values → v ∉ s.values →
    OfTypes policy s t (enumValueAdded s.name v)

theorem of_mem_of_types {policy : Policy} {s t : TypeDef} (ht : t.Built) {c : Change}
    (h : c ∈ ofTypes policy s t) : OfTypes policy s t c := by
  rw [of_types_eq] at h
  split at h
  · rename_i hk
    simp only [ofMembers, valueChanges, List.mem_append] at h
    rcases h with (h | h) | (h | h)
    · obtain ⟨m, hm, hc⟩ := List.mem_filterMap.mp h
      rcases (of_member_cases ht.members_distinct).mp hc with ⟨hno, rfl⟩ | ⟨n, hn, he, hx, rfl⟩
      · exact .memberGone hk hm hno
      · exact .memberChanged hk hm hn he hx
    · obtain ⟨v, hv, rfl⟩ := List.mem_map.mp h
      obtain ⟨hv, hno⟩ := mem_names_only.mp hv
      obtain ⟨n, hn, rfl⟩ := List.mem_map.mp hv
      exact .memberNew hk hn hno
    · obtain ⟨v, hv, rfl⟩ := List.mem_map.mp h
      obtain ⟨hv, hno⟩ := mem_names_only.mp hv
      exact .valueGone hk hv hno
    · obtain ⟨v, hv, rfl⟩ := List.mem_map.mp h
      obtain ⟨hv, hno⟩ := mem_names_only.mp hv
      exact .valueNew hk hv hno
  · rename_i hk
    rcases List.mem_cons.mp h with rfl | h
    · exact .kindLeft hk
    · obtain rfl := List.mem_singleton.mp h
      exact .kindCame hk

theorem mem_of_types {policy : Policy} {s t : TypeDef} (ht : t.Built) {c : Change} :
    c ∈ ofTypes policy s t ↔ OfTypes policy s t c := by
  refine ⟨of_mem_of_types ht, ?_⟩
  intro h
  rw [of_types_eq]
  have hm := @of_member_cases policy s.kind.position s.name t.members ht.members_distinct
  cases h with
  | kindLeft hk => simp [hk]
  | kindCame hk => simp [hk]
  | memberGone hk hs hno =>
    rw [if_pos hk]
    exact List.mem_append_left _ (List.mem_append_left _
      (List.mem_filterMap.mpr ⟨_, hs, hm.mpr (.inl ⟨hno, rfl⟩)⟩))
  | memberChanged hk hs hn he hx =>
    rw [if_pos hk]
    exact List.mem_append_left _ (List.mem_append_left _
      (List.mem_filterMap.mpr ⟨_, hs, hm.mpr (.inr ⟨_, hn, he, hx, rfl⟩)⟩))
  | memberNew hk hn hno =>
    rw [if_pos hk]
    exact List.mem_append_left _ (List.mem_append_right _
      (List.mem_map_of_mem (mem_names_only.mpr ⟨List.mem_map_of_mem hn, hno⟩)))
  | valueGone hk hv hno =>
    rw [if_pos hk]
    exact List.mem_append_right _ (List.mem_append_left _
      (List.mem_map_of_mem (mem_names_only.mpr ⟨hv, hno⟩)))
  | valueNew hk hv hno =>
    rw [if_pos hk]
    exact List.mem_append_right _ (List.mem_append_right _
      (List.mem_map_of_mem (mem_names_only.mpr ⟨hv, hno⟩)))

theorem OfTypes.differs {policy : Policy} {s t : TypeDef} (hn : s.name = t.name) {c : Change}
    (h : OfTypes policy s t c) : s.Differs t c.finding := by
  cases h with
  | kindLeft hk => exact .kindLeft hk
  | kindCame hk => exact hn ▸ .kindCame hk
  | memberGone hk hm hno => exact .memberGone hk hm hno
  | memberNew hk hm hno => exact .memberNew hk hm hno
  | memberChanged hk hm hn he hx => exact .memberChanged hk hm hn he hx
  | valueGone hk hv hno => exact .valueGone hk hv hno
  | valueNew hk hv hno => exact .valueNew hk hv hno

theorem of_types_of_differs (policy : Policy) {s t : TypeDef} (hn : s.name = t.name) {f : Finding}
    (h : s.Differs t f) : ∃ c, OfTypes policy s t c ∧ c.finding = f := by
  cases h with
  | kindLeft hk => exact ⟨_, .kindLeft hk, rfl⟩
  | kindCame hk => exact ⟨_, .kindCame hk, hn ▸ rfl⟩
  | memberGone hk hm hno => exact ⟨_, .memberGone hk hm hno, rfl⟩
  | memberNew hk hm hno => exact ⟨_, .memberNew hk hm hno, rfl⟩
  | memberChanged hk hm hn he hx => exact ⟨_, .memberChanged hk hm hn he hx, rfl⟩
  | valueGone hk hv hno => exact ⟨_, .valueGone hk hv hno, rfl⟩
  | valueNew hk hv hno => exact ⟨_, .valueNew hk hv hno, rfl⟩

end Change

namespace Model

theorem mem_of_shared {policy : Policy} {b : Model} (hb : b.Built) {s : TypeDef} {c : Change} :
    c ∈ Change.ofShared policy b s ↔
      ∃ t ∈ b.types, s.name = t.name ∧ Change.OfTypes policy s t c := by
  unfold Change.ofShared
  cases hf : b.find? s.name with
  | none =>
    have hno := find_none_iff.mp hf
    constructor
    · intro h
      simp at h
    · intro hs
      obtain ⟨t, ht, hn, _⟩ := hs
      exact absurd (List.mem_map.mpr ⟨t, ht, hn.symm⟩) hno
  | some t =>
    obtain ⟨ht, hn⟩ := (find_iff hb.names_distinct).mp hf
    rw [Option.elim_some, Change.mem_of_types (hb.types_built t ht)]
    constructor
    · intro h
      exact ⟨t, ht, hn.symm, h⟩
    · intro hd
      obtain ⟨u, hu, he, h⟩ := hd
      have := (find_iff hb.names_distinct).mpr ⟨hu, he.symm⟩
      rw [hf] at this
      exact Option.some.inj this ▸ h

/-- Every change is of a type that is gone, of a shared type, or of a new type. -/
theorem mem_changes {policy : Policy} {a b : Model} (hb : b.Built) {c : Change} :
    c ∈ a.changes policy b ↔
      (∃ name ∈ a.names, name ∉ b.names ∧ c = Change.typeRemoved name) ∨
      (∃ s ∈ a.types, ∃ t ∈ b.types, s.name = t.name ∧ Change.OfTypes policy s t c) ∨
      ∃ name ∈ b.names, name ∉ a.names ∧ c = Change.typeAdded name := by
  simp only [changes, List.mem_append, List.mem_map, Change.mem_names_only, List.mem_flatMap,
    mem_of_shared hb, and_assoc, or_assoc, eq_comm]

theorem mem_findings {policy : Policy} {a b : Model} (hb : b.Built) {f : Finding} :
    f ∈ (a.changes policy b).map Change.finding ↔ a.Differs b f := by
  constructor
  · intro h
    obtain ⟨c, hc, rfl⟩ := List.mem_map.mp h
    rcases (mem_changes hb).mp hc with ⟨n, hn, hno, rfl⟩ | ⟨s, hs, t, ht, hn, h⟩ | ⟨n, hn, hno, rfl⟩
    · exact .typeGone hn hno
    · exact .shared hs ht hn (h.differs hn)
    · exact .typeNew hn hno
  · intro h
    cases h with
    | typeGone hn hno =>
      exact List.mem_map.mpr ⟨_, (mem_changes hb).mpr (.inl ⟨_, hn, hno, rfl⟩), rfl⟩
    | typeNew hn hno =>
      exact List.mem_map.mpr ⟨_, (mem_changes hb).mpr (.inr (.inr ⟨_, hn, hno, rfl⟩)), rfl⟩
    | shared hs ht hn h =>
      obtain ⟨c, hc, rfl⟩ := Change.of_types_of_differs policy hn h
      exact List.mem_map.mpr
        ⟨c, (mem_changes hb).mpr (.inr (.inl ⟨_, hs, _, ht, hn, hc⟩)), rfl⟩

end Model

end SchemaHistory
