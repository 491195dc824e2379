import SchemaHistory.Proofs.Exactness

namespace SchemaHistory

/-- Inside one type, what is gone or changed comes before what is new. -/
def Change.phase (c : Change) : Nat :=
  match c.kind with
  | .typeAdded => 1
  | .fieldAdded => 1
  | .enumValueAdded => 1
  | _ => 0

/-- The names of whatever a type consists of, in its order. -/
def TypeDef.parts (t : TypeDef) : List String :=
  t.members.map Member.name ++ t.values

/-- The position of a part. The type as a whole comes before all of them. -/
def TypeDef.indexOf (t : TypeDef) : Option String → Nat
  | some name => t.parts.idxOf name
  | none => 0

def Model.indexOf (m : Model) (typeName : String) (part : Option String) : Nat :=
  (m.find? typeName).elim 0 fun t => t.indexOf part

/-- The place of a change in a report. Types that are gone come first, then shared types, each by
the old model; then new types, by the new model. Within a shared type, parts that are gone or
changed come first, by the old model, and then new parts, by the new model. -/
def Model.place (a b : Model) (c : Change) : List Nat :=
  if c.typeName ∉ b.names then [0, a.names.idxOf c.typeName]
  else if c.typeName ∉ a.names then [2, b.names.idxOf c.typeName]
  else [1, a.names.idxOf c.typeName, c.phase,
    (if c.phase = 0 then a else b).indexOf c.typeName c.memberName]

theorem indices_ascend {xs : List String} (h : xs.Nodup) :
    xs.Pairwise fun x y => xs.idxOf x < xs.idxOf y := by
  rw [List.pairwise_iff_getElem]
  intro i j hi hj hij
  rwa [h.idxOf_getElem i hi, h.idxOf_getElem j hj]

namespace TypeDef

theorem parts_of_enum {t : TypeDef} (h : t.kind = .enum) : t.members = [] ∧ t.parts = t.values := by
  obtain ⟨_, _, body⟩ := t
  cases body with
  | enum values => exact ⟨rfl, rfl⟩
  | _ => cases h

theorem parts_of_other {t : TypeDef} (h : t.kind ≠ .enum) :
    t.values = [] ∧ t.parts = t.members.map Member.name := by
  obtain ⟨_, _, body⟩ := t
  cases body with
  | enum values => exact absurd rfl h
  | _ => exact ⟨rfl, List.append_nil _⟩

end TypeDef

namespace Change

/-- The last two numbers of a place. -/
def rank (s t : TypeDef) (c : Change) : List Nat :=
  [c.phase, (if c.phase = 0 then s else t).indexOf c.memberName]

/-- Changes in two phases, each of them in the order of its own type. -/
theorem ranks_of_phases {s t : TypeDef} {olds news : List Change} (h0 : ∀ c ∈ olds, c.phase = 0)
    (h1 : ∀ c ∈ news, c.phase = 1)
    (p0 : olds.Pairwise fun c d => s.indexOf c.memberName < s.indexOf d.memberName)
    (p1 : news.Pairwise fun c d => t.indexOf c.memberName < t.indexOf d.memberName) :
    (olds ++ news).Pairwise fun c d => rank s t c < rank s t d := by
  refine List.pairwise_append.mpr ⟨?_, ?_, ?_⟩
  · refine p0.imp_of_mem fun hc hd h => ?_
    simp [rank, h0 _ hc, h0 _ hd, List.cons_lt_cons_iff, h]
  · refine p1.imp_of_mem fun hc hd h => ?_
    simp [rank, h1 _ hc, h1 _ hd, List.cons_lt_cons_iff, h]
  · intro c hc d hd
    simp [rank, h0 c hc, h1 d hd, List.cons_lt_cons_iff]

theorem of_member_fields {policy : Policy} {position : Position} {owner : String}
    {after : List Member} {m : Member} {c : Change}
    (h : ofMember? policy position owner after m = some c) :
    c.phase = 0 ∧ c.memberName = some m.name := by
  unfold ofMember? at h
  split at h
  · cases h
    exact ⟨rfl, rfl⟩
  · split at h
    · contradiction
    · cases h
      exact ⟨rfl, rfl⟩

/-- New names keep the order of the type that has them. -/
theorem names_only_ascend {t : TypeDef} {names others : List String} (hn : names.Nodup)
    (hp : t.parts = names) (f : String → Change) (hf : ∀ n, (f n).memberName = some n) :
    ((namesOnlyIn names others).map f).Pairwise fun c d =>
      t.indexOf c.memberName < t.indexOf d.memberName := by
  rw [List.pairwise_map]
  simp only [hf, TypeDef.indexOf, hp]
  exact (indices_ascend hn).filter _

/-- The changes of one type come in the order of its parts. -/
theorem of_types_ranks (policy : Policy) {s t : TypeDef} (hs : s.Built) (ht : t.Built) :
    (ofTypes policy s t).Pairwise fun c d => rank s t c < rank s t d := by
  rw [of_types_eq]
  split
  · rename_i hk
    by_cases he : s.kind = .enum
    · obtain ⟨hsm, hsp⟩ := TypeDef.parts_of_enum he
      obtain ⟨htm, htp⟩ := TypeDef.parts_of_enum (hk ▸ he)
      simp only [ofMembers, hsm, htm, List.filterMap_nil, List.map_nil, namesOnlyIn,
        List.filter_nil, List.nil_append]
      apply ranks_of_phases
      · intro c hc
        obtain ⟨v, _, rfl⟩ := List.mem_map.mp hc
        rfl
      · intro c hc
        obtain ⟨v, _, rfl⟩ := List.mem_map.mp hc
        rfl
      · exact names_only_ascend hs.values_distinct hsp _ fun _ => rfl
      · exact names_only_ascend ht.values_distinct htp _ fun _ => rfl
    · obtain ⟨hsv, hsp⟩ := TypeDef.parts_of_other he
      obtain ⟨htv, htp⟩ := TypeDef.parts_of_other (hk ▸ he)
      simp only [valueChanges, hsv, htv, namesOnlyIn, List.filter_nil, List.map_nil,
        List.append_nil]
      apply ranks_of_phases
      · intro c hc
        obtain ⟨m, _, hc⟩ := List.mem_filterMap.mp hc
        exact (of_member_fields hc).1
      · intro c hc
        obtain ⟨v, _, rfl⟩ := List.mem_map.mp hc
        rfl
      · rw [List.pairwise_filterMap]
        have ha := indices_ascend hs.members_distinct
        rw [List.pairwise_map] at ha
        apply ha.imp
        intro m n hlt c hc d hd
        rw [(of_member_fields hc).2, (of_member_fields hd).2]
        simpa [TypeDef.indexOf, hsp] using hlt
      · exact names_only_ascend ht.members_distinct htp _ fun _ => rfl
  · simp [rank, phase, typeRemoved, typeAdded, List.cons_lt_cons_iff]

theorem OfTypes.type_name {policy : Policy} {s t : TypeDef} (hn : s.name = t.name) {c : Change}
    (h : OfTypes policy s t c) : c.typeName = s.name := by
  cases h <;> first | rfl | exact hn.symm

end Change

namespace Model

/-- The place of a change of a shared type, from the type itself. -/
theorem place_of_shared {policy : Policy} {a b : Model} (ha : a.Built) (hb : b.Built)
    {s t : TypeDef} (hs : s ∈ a.types) (ht : t ∈ b.types) (hn : s.name = t.name) {c : Change}
    (h : Change.OfTypes policy s t c) :
    a.place b c = 1 :: a.names.idxOf s.name :: c.rank s t := by
  have hfs := (find_iff ha.names_distinct).mpr ⟨hs, rfl⟩
  have hft := (find_iff hb.names_distinct).mpr ⟨ht, hn.symm⟩
  have hma : s.name ∈ a.names := mem_names hs
  have hmb : s.name ∈ b.names := hn ▸ mem_names ht
  simp only [place, h.type_name hn, hma, hmb, not_true_eq_false, ↓reduceIte, Change.rank]
  split <;> simp [indexOf, hfs, hft]

theorem place_of_gone {a b : Model} {name : String} (h : name ∉ b.names) :
    a.place b (Change.typeRemoved name) = [0, a.names.idxOf name] :=
  if_pos h

theorem place_of_new {a b : Model} {name : String} (hb : name ∈ b.names) (ha : name ∉ a.names) :
    a.place b (Change.typeAdded name) = [2, b.names.idxOf name] := by
  simp [place, Change.typeAdded, ha, hb]

theorem shared_places_ascend (policy : Policy) {a b : Model} (ha : a.Built) (hb : b.Built) :
    (a.types.flatMap (Change.ofShared policy b)).Pairwise fun c d =>
      a.place b c < a.place b d := by
  refine List.pairwise_flatMap.mpr ⟨?_, ?_⟩
  · intro s hs
    unfold Change.ofShared
    cases hf : b.find? s.name with
    | none => exact .nil
    | some t =>
      obtain ⟨ht, hn⟩ := (find_iff hb.names_distinct).mp hf
      have hbt := hb.types_built t ht
      apply (Change.of_types_ranks policy (ha.types_built s hs) hbt).imp_of_mem
      intro c d hc hd h
      rw [place_of_shared ha hb hs ht hn.symm (Change.of_mem_of_types hbt hc),
        place_of_shared ha hb hs ht hn.symm (Change.of_mem_of_types hbt hd)]
      simpa [List.cons_lt_cons_iff] using h
  · have hi := indices_ascend ha.names_distinct
    rw [names, List.pairwise_map] at hi
    apply hi.imp_of_mem
    intro s u hs hu hlt c hc d hd
    obtain ⟨t, ht, hn, h⟩ := (mem_of_shared hb).mp hc
    obtain ⟨v, hv, hm, h'⟩ := (mem_of_shared hb).mp hd
    rw [place_of_shared ha hb hs ht hn h, place_of_shared ha hb hu hv hm h']
    exact List.cons_lt_cons_iff.mpr (.inr ⟨rfl, List.cons_lt_cons_iff.mpr (.inl hlt)⟩)

/-- A report lists its changes by their places, each place once. -/
theorem places_ascend (policy : Policy) {a b : Model} (ha : a.Built) (hb : b.Built) :
    (a.changes policy b).Pairwise fun c d => a.place b c < a.place b d := by
  have hgone : ∀ c ∈ (Change.namesOnlyIn a.names b.names).map Change.typeRemoved,
      ∃ r, a.place b c = 0 :: r := by
    intro c hc
    obtain ⟨n, hn, rfl⟩ := List.mem_map.mp hc
    exact ⟨_, place_of_gone (Change.mem_names_only.mp hn).2⟩
  have hshared : ∀ c ∈ a.types.flatMap (Change.ofShared policy b), ∃ r, a.place b c = 1 :: r := by
    intro c hc
    obtain ⟨s, hs, hc⟩ := List.mem_flatMap.mp hc
    obtain ⟨t, ht, hn, h⟩ := (mem_of_shared hb).mp hc
    exact ⟨_, place_of_shared ha hb hs ht hn h⟩
  have hnew : ∀ c ∈ (Change.namesOnlyIn b.names a.names).map Change.typeAdded,
      ∃ r, a.place b c = 2 :: r := by
    intro c hc
    obtain ⟨n, hn, rfl⟩ := List.mem_map.mp hc
    obtain ⟨hb, ha⟩ := Change.mem_names_only.mp hn
    exact ⟨_, place_of_new hb ha⟩
  refine List.pairwise_append.mpr ⟨List.pairwise_append.mpr ⟨?_, ?_, ?_⟩, ?_, ?_⟩
  · rw [List.pairwise_map]
    apply ((indices_ascend ha.names_distinct).filter _).imp_of_mem
    intro m n hm hn h
    rw [place_of_gone (Change.mem_names_only.mp hm).2,
      place_of_gone (Change.mem_names_only.mp hn).2]
    simpa [List.cons_lt_cons_iff] using h
  · exact shared_places_ascend policy ha hb
  · intro c hc d hd
    obtain ⟨r, hr⟩ := hgone c hc
    obtain ⟨q, hq⟩ := hshared d hd
    simp [hr, hq, List.cons_lt_cons_iff]
  · rw [List.pairwise_map]
    apply ((indices_ascend hb.names_distinct).filter _).imp_of_mem
    intro m n hm hn h
    obtain ⟨hmb, hma⟩ := Change.mem_names_only.mp hm
    obtain ⟨hnb, hna⟩ := Change.mem_names_only.mp hn
    rw [place_of_new hmb hma, place_of_new hnb hna]
    simpa [List.cons_lt_cons_iff] using h
  · intro c hc d hd
    obtain ⟨q, hq⟩ := hnew d hd
    rcases List.mem_append.mp hc with hc | hc
    · obtain ⟨r, hr⟩ := hgone c hc
      simp [hr, hq, List.cons_lt_cons_iff]
    · obtain ⟨r, hr⟩ := hshared c hc
      simp [hr, hq, List.cons_lt_cons_iff]

/-- The place of a change only depends on its kind and on the names that it is about. -/
theorem place_congr {a b : Model} {c d : Change} (hk : c.kind = d.kind)
    (ht : c.typeName = d.typeName) (hm : c.memberName = d.memberName) :
    a.place b c = a.place b d := by
  have hp : c.phase = d.phase := by simp only [Change.phase, hk]
  simp only [place, hp, ht, hm]

/-- A comparison of two models reports every difference between them once and nothing else, in the
order of the old model and then of the new one. -/
theorem changes_exact {r s : Introspection.Schema} {a b : Model} (policy : Policy)
    (ha : ofSchema r = .ok a) (hb : ofSchema s = .ok b) :
    (∀ f, f ∈ (a.changes policy b).map Change.finding ↔ a.Differs b f) ∧
    ((a.changes policy b).map fun c => (c.kind, c.typeName, c.memberName)).Nodup ∧
    ((a.changes policy b).map (a.place b)).Pairwise (· < ·) := by
  have hp := places_ascend policy (built_of_schema ha) (built_of_schema hb)
  refine ⟨fun f => mem_findings (built_of_schema hb), ?_, List.pairwise_map.mpr hp⟩
  rw [List.Nodup, List.pairwise_map]
  apply hp.imp
  intro c d hlt he
  simp only [Prod.mk.injEq] at he
  rw [place_congr he.1 he.2.1 he.2.2] at hlt
  exact List.lt_irrefl _ hlt

/-- A query type that loses a field and gets another; a third keeps its name but not its type. -/
def shapesBefore : Introspection.Schema :=
  .ofTypes "Query" [.object "Query" [("size", .last "SCALAR" (some "Int")),
    ("shape", .link "NON_NULL" none (.last "OBJECT" (some "Shape")))], .object "Shape" []]

def shapesAfter : Introspection.Schema :=
  .ofTypes "Query" [.object "Query" [("shape", .last "SCALAR" (some "Shape")),
    ("area", .last "SCALAR" (some "Int"))],
    ⟨"SCALAR", "Shape", .absent, .absent, .absent, .absent, .absent, .absent⟩]

theorem changes_exact_shapes : ∃ a b,
    ofSchema shapesBefore = .ok a ∧ ofSchema shapesAfter = .ok b ∧
    a.Differs b ⟨.typeAdded, "Shape", none, none, none⟩ ∧
    a.Differs b ⟨.fieldTypeChanged, "Query", some "shape", some "Shape!", some "Shape"⟩ ∧
    ¬a.Differs b ⟨.fieldRemoved, "Query", some "shape", none, none⟩ ∧
    ((a.changes .structural b).map fun c => (c.kind, c.typeName, c.memberName)).Nodup ∧
    ((a.changes .structural b).map (a.place b)).Pairwise (· < ·) := by
  refine ⟨_, _, rfl, rfl, ?_⟩
  obtain ⟨hf, hd, hp⟩ := changes_exact (r := shapesBefore) (s := shapesAfter) .structural rfl rfl
  refine ⟨(hf _).mp (by decide), (hf _).mp (by decide), ?_, hd, hp⟩
  exact fun h => absurd ((hf _).mpr h) (by decide)

end Model

end SchemaHistory
