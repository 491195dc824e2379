import SchemaHistory.Proofs.WellFormed

namespace SchemaHistory

open Introspection (WellFormedInputs WellFormedFields ownEntries)

theorem mapM_ok_iff {ε α β : Type} {f : α → Except ε β} {xs : List α} {ys : List β} :
    xs.mapM f = .ok ys ↔ List.Forall₂ (fun x y => f x = .ok y) xs ys := by
  refine ⟨mapM_ok, ?_⟩
  intro h
  induction h with
  | nil => rfl
  | cons hx _ ih =>
    rw [List.mapM_cons]
    exact bind_ok.mpr ⟨_, hx, bind_ok.mpr ⟨_, ih, rfl⟩⟩

theorem forall₂_map_eq {α β γ : Type} {r : α → β → Prop} {f : α → γ} {g : β → γ} {xs : List α}
    {ys : List β} (h : List.Forall₂ r xs ys) (he : ∀ x y, r x y → g y = f x) :
    ys.map g = xs.map f := by
  induction h with
  | nil => rfl
  | cons hxy _ ih => rw [List.map_cons, List.map_cons, he _ _ hxy, ih]

theorem forall₂_exists_left {α β : Type} {r : α → β → Prop} {xs : List α} {ys : List β}
    (h : List.Forall₂ r xs ys) {x : α} (hx : x ∈ xs) : ∃ y ∈ ys, r x y := by
  induction h with
  | nil => contradiction
  | cons hxy _ ih =>
    rcases List.mem_cons.mp hx with rfl | hx
    · exact ⟨_, List.mem_cons_self, hxy⟩
    · obtain ⟨y, hy, hr⟩ := ih hx
      exact ⟨y, List.mem_cons_of_mem _ hy, hr⟩

theorem first_repeated_none_iff {seen names : List String} :
    firstRepeated? seen names = none ↔ names.Nodup ∧ ∀ n ∈ names, n ∉ seen := by
  refine ⟨first_repeated_none, ?_⟩
  induction names generalizing seen with
  | nil => exact fun _ => rfl
  | cons n ns ih =>
    intro h
    obtain ⟨hd, hs⟩ := h
    obtain ⟨hn, hd⟩ := List.nodup_cons.mp hd
    obtain ⟨hns, hs⟩ := List.forall_mem_cons.mp hs
    have hc : seen.contains n = false := by simpa using hns
    rw [firstRepeated?, hc]
    refine ih ⟨hd, fun m hm => ?_⟩
    refine List.not_mem_cons_of_ne_of_not_mem ?_ (hs m hm)
    rintro rfl
    exact hn hm

theorem check_distinct_iff {owner : String} {names : List String} :
    checkDistinct owner names = .ok () ↔ names.Nodup := by
  refine ⟨distinct_of_check, ?_⟩
  intro h
  have hf : firstRepeated? [] names = none :=
    first_repeated_none_iff.mpr ⟨h, fun _ _ => List.not_mem_nil⟩
  rw [checkDistinct, hf]

namespace TypeKind

theorem of_text_iff {text : String} {kind : TypeKind} :
    ofText? text = some kind ↔ kind.text = text := by
  constructor
  · intro h
    simpa using List.find?_some h
  · rintro rfl
    cases kind <;> rfl

end TypeKind

theorem Argument.build_iff {owner : String} {raw : Introspection.InputValue} {a : Argument} :
    build owner raw = .ok a ↔ a.Of raw := by
  constructor
  · intro h
    obtain ⟨type, ht, h⟩ := bind_ok.mp h
    obtain rfl := pure_ok.mp h
    exact ⟨rfl, rfl, RefChain.resolve_at_iff.mp ht, rfl⟩
  · intro h
    obtain ⟨name, description, type, defaultValue⟩ := a
    obtain ⟨rfl, rfl, ht, rfl⟩ := h
    exact bind_ok.mpr ⟨type, RefChain.resolve_at_iff.mpr ht, rfl⟩

/-- Arguments or input fields are built one by one, and then their names are compared. -/
theorem Argument.build_list_iff {owner : String} {raws : List Introspection.InputValue}
    {as : List Argument} :
    raws.mapM (build owner) = .ok as ∧ (as.map Argument.name).Nodup ↔
      WellFormedInputs raws ∧ List.Forall₂ Argument.Of raws as := by
  simp only [mapM_ok_iff, build_iff]
  have hn : List.Forall₂ Argument.Of raws as → as.map Argument.name
      = raws.map Introspection.InputValue.name := fun h => forall₂_map_eq h fun _ _ h => h.name
  constructor
  · intro h
    refine ⟨⟨fun v hv => ?_, hn h.1 ▸ h.2⟩, h.1⟩
    obtain ⟨a, _, ha⟩ := forall₂_exists_left h.1 hv
    exact ⟨a.type, ha.type⟩
  · intro h
    exact ⟨h.2, hn h.2 ▸ h.1.distinct⟩

theorem Field.build_iff {owner : String} {raw : Introspection.Field} {f : Field} :
    build owner raw = .ok f ↔ raw.WellFormed ∧ f.Of raw := by
  constructor
  · intro h
    obtain ⟨args, hargs, h⟩ := bind_ok.mp h
    obtain ⟨_, hd, h⟩ := bind_ok.mp h
    obtain ⟨type, ht, h⟩ := bind_ok.mp h
    obtain rfl := pure_ok.mp h
    obtain ⟨hw, ho⟩ := Argument.build_list_iff.mp ⟨hargs, distinct_of_check hd⟩
    have ht := RefChain.resolve_at_iff.mp ht
    exact ⟨⟨⟨type, ht⟩, hw⟩, ⟨rfl, rfl, ht, ho, rfl, rfl⟩⟩
  · intro h
    obtain ⟨hw, ho⟩ := h
    obtain ⟨name, description, type, args, isDeprecated, deprecationReason⟩ := f
    obtain ⟨rfl, rfl, ht, ha, rfl, rfl⟩ := ho
    obtain ⟨hargs, hd⟩ := Argument.build_list_iff.mpr ⟨hw.args, ha⟩
    exact bind_ok.mpr ⟨args, hargs, bind_ok.mpr ⟨(), check_distinct_iff.mpr hd,
      bind_ok.mpr ⟨type, RefChain.resolve_at_iff.mpr ht, rfl⟩⟩⟩

namespace TypeDef

theorem build_fields_iff {raw : Introspection.TypeEntry} {fields : List Field} :
    buildFields raw = .ok fields ↔
      WellFormedFields raw.fields.items ∧ List.Forall₂ Field.Of raw.fields.items fields := by
  have hn : List.Forall₂ Field.Of raw.fields.items fields → fields.map Field.name
      = raw.fields.items.map Introspection.Field.name :=
    fun h => forall₂_map_eq h fun _ _ h => h.name
  constructor
  · intro h
    obtain ⟨fs, hfs, h⟩ := bind_ok.mp h
    obtain ⟨_, hd, h⟩ := bind_ok.mp h
    obtain rfl := pure_ok.mp h
    have hb := mapM_ok hfs
    simp only [Field.build_iff] at hb
    have ho := hb.imp fun _ _ h => h.2
    refine ⟨⟨fun f hf => ?_, hn ho ▸ distinct_of_check hd⟩, ho⟩
    obtain ⟨_, _, hw, _⟩ := forall₂_exists_left hb hf
    exact hw
  · intro h
    obtain ⟨hw, ho⟩ := h
    have hb : List.Forall₂ (fun raw' f => Field.build raw.name raw' = .ok f) raw.fields.items
        fields := by
      simp only [Field.build_iff]
      exact List.forall₂_and_left _ _ |>.mpr ⟨hw.fields, ho⟩
    exact bind_ok.mpr ⟨fields, mapM_ok_iff.mpr hb,
      bind_ok.mpr ⟨(), check_distinct_iff.mpr (hn ho ▸ hw.distinct), rfl⟩⟩

theorem enum_values_eq {raws : List Introspection.EnumValue} {values : List EnumValue}
    (h : List.Forall₂ EnumValue.Of raws values) : values = raws.map EnumValue.build := by
  induction h with
  | nil => rfl
  | @cons raw value _ _ hv _ ih =>
    obtain ⟨name, description, isDeprecated, deprecationReason⟩ := value
    obtain ⟨rfl, rfl, rfl, rfl⟩ := hv
    rw [List.map_cons, ← ih]
    rfl

theorem build_body_iff {raw : Introspection.TypeEntry} {kind : TypeKind} {body : TypeBody} :
    buildBody raw kind = .ok body ↔ raw.WellFormedAs kind ∧ body.kind = kind ∧ body.Of raw := by
  cases kind with
  | object =>
    constructor
    · intro h
      obtain ⟨fields, hf, h⟩ := bind_ok.mp h
      obtain rfl := pure_ok.mp h
      obtain ⟨hw, ho⟩ := build_fields_iff.mp hf
      exact ⟨hw, rfl, rfl, ho⟩
    · intro h
      obtain ⟨hw, hk, ho⟩ := h
      cases body <;> cases hk
      obtain ⟨rfl, ho⟩ := ho
      exact bind_ok.mpr ⟨_, build_fields_iff.mpr ⟨hw, ho⟩, rfl⟩
  | interface =>
    constructor
    · intro h
      obtain ⟨fields, hf, h⟩ := bind_ok.mp h
      obtain rfl := pure_ok.mp h
      obtain ⟨hw, ho⟩ := build_fields_iff.mp hf
      exact ⟨hw, rfl, ho⟩
    · intro h
      obtain ⟨hw, hk, ho⟩ := h
      cases body <;> cases hk
      exact bind_ok.mpr ⟨_, build_fields_iff.mpr ⟨hw, ho⟩, rfl⟩
  | inputObject =>
    constructor
    · intro h
      obtain ⟨fields, hf, h⟩ := bind_ok.mp h
      obtain ⟨_, hd, h⟩ := bind_ok.mp h
      obtain rfl := pure_ok.mp h
      obtain ⟨hw, ho⟩ := Argument.build_list_iff.mp ⟨hf, distinct_of_check hd⟩
      exact ⟨hw, rfl, ho⟩
    · intro h
      obtain ⟨hw, hk, ho⟩ := h
      cases body <;> cases hk
      obtain ⟨hf, hd⟩ := Argument.build_list_iff.mpr ⟨hw, ho⟩
      exact bind_ok.mpr ⟨_, hf, bind_ok.mpr ⟨(), check_distinct_iff.mpr hd, rfl⟩⟩
  | enum =>
    have hn : (raw.enumValues.items.map EnumValue.build).map EnumValue.name
        = raw.enumValues.items.map Introspection.EnumValue.name :=
      forall₂_map_eq (enum_values_of _) fun _ _ h => h.name
    constructor
    · intro h
      obtain ⟨_, hd, h⟩ := bind_ok.mp h
      obtain rfl := pure_ok.mp h
      have hd := distinct_of_check hd
      rw [hn] at hd
      exact ⟨hd, rfl, enum_values_of _⟩
    · intro h
      obtain ⟨hw, hk, ho⟩ := h
      cases body <;> cases hk
      rw [enum_values_eq ho]
      exact bind_ok.mpr ⟨(), check_distinct_iff.mpr (hn ▸ hw), rfl⟩
  | union =>
    constructor
    · rintro ⟨⟩
      exact ⟨trivial, rfl, rfl⟩
    · intro h
      obtain ⟨_, hk, ho⟩ := h
      cases body <;> cases hk
      exact congrArg (fun members => Except.ok (TypeBody.union members)) (Eq.symm ho)
  | scalar =>
    constructor
    · rintro ⟨⟩
      exact ⟨trivial, rfl, trivial⟩
    · intro h
      obtain ⟨_, hk, _⟩ := h
      cases body <;> cases hk
      rfl

theorem build_iff {raw : Introspection.TypeEntry} {t : TypeDef} :
    build raw = .ok t ↔ raw.WellFormed ∧ t.Of raw := by
  unfold build
  cases hk : TypeKind.ofText? raw.kind with
  | none =>
    constructor
    · intro h
      contradiction
    · intro h
      obtain ⟨kind, he, _⟩ := h.1
      rw [TypeKind.of_text_iff.mpr he] at hk
      contradiction
  | some kind =>
    have he := TypeKind.of_text_iff.mp hk
    constructor
    · intro h
      obtain ⟨body, hb, h⟩ := bind_ok.mp h
      obtain rfl := pure_ok.mp h
      obtain ⟨hw, rfl, ho⟩ := build_body_iff.mp hb
      exact ⟨⟨_, he, hw⟩, ⟨rfl, rfl, he, ho⟩⟩
    · intro h
      obtain ⟨⟨kind', he', hw⟩, ho⟩ := h
      obtain ⟨name, description, body⟩ := t
      obtain ⟨rfl, rfl, hb, ho⟩ := ho
      rw [TypeKind.of_text_iff.mpr he'] at hk
      obtain rfl := Option.some.inj hk
      have hkind := TypeKind.of_text_iff.mpr hb
      rw [TypeKind.of_text_iff.mpr he'] at hkind
      exact bind_ok.mpr ⟨body, build_body_iff.mpr ⟨hw, (Option.some.inj hkind).symm, ho⟩, rfl⟩

/-- Entries are built in their order, those that are reserved left out. A name may not occur again,
neither among them nor among the definitions so far. -/
theorem build_all_iff {done types : List TypeDef} {raws : List Introspection.TypeEntry} :
    buildAll done raws = .ok types ↔ ∃ ts, types = done.reverse ++ ts ∧
      List.Forall₂ (fun raw t => build raw = .ok t) (ownEntries raws) ts ∧
      ((ownEntries raws).map Introspection.TypeEntry.name).Nodup ∧
      ∀ raw ∈ ownEntries raws, raw.name ∉ done.map name := by
  induction raws generalizing done with
  | nil => simp [buildAll, ownEntries, eq_comm]
  | cons raw raws ih =>
    unfold buildAll
    cases hr : isReserved raw.name with
    | true =>
      have ho : ownEntries (raw :: raws) = ownEntries raws := by simp [ownEntries, hr]
      rw [if_pos rfl, ih, ho]
    | false =>
      have ho : ownEntries (raw :: raws) = raw :: ownEntries raws := by simp [ownEntries, hr]
      rw [if_neg Bool.false_ne_true, ho]
      split
      · rename_i hd
        constructor
        · intro h
          contradiction
        · intro h
          obtain ⟨_, _, _, _, hn⟩ := h
          obtain ⟨u, hu, he⟩ := List.any_eq_true.mp hd
          exact absurd (List.mem_map.mpr ⟨u, hu, by simpa using he⟩) (hn raw List.mem_cons_self)
      · rename_i hd
        have hnew : raw.name ∉ done.map name := by
          intro hm
          obtain ⟨u, hu, he⟩ := List.mem_map.mp hm
          exact hd (List.any_eq_true.mpr ⟨u, hu, by simpa using he⟩)
        constructor
        · intro h
          obtain ⟨t, ht, h⟩ := bind_ok.mp h
          obtain ⟨ts, rfl, hts, hnd, hn⟩ := ih.mp h
          have hname := (build_built ht).1
          refine ⟨t :: ts, by simp, .cons ht hts, ?_, ?_⟩
          · refine List.nodup_cons.mpr ⟨?_, hnd⟩
            intro hm
            obtain ⟨r, hr, he⟩ := List.mem_map.mp hm
            exact hn r hr (by simp [he, hname])
          · refine List.forall_mem_cons.mpr ⟨hnew, fun r hr hm => ?_⟩
            exact hn r hr (List.mem_cons_of_mem _ hm)
        · intro h
          obtain ⟨_, rfl, hts, hnd, hn⟩ := h
          cases hts with
          | @cons _ t _ ts ht hts =>
            have hname := (build_built ht).1
            obtain ⟨hraw, hnd⟩ := List.nodup_cons.mp hnd
            refine bind_ok.mpr ⟨t, ht, ih.mpr ⟨ts, by simp, hts, hnd, fun r hr => ?_⟩⟩
            refine List.not_mem_cons_of_ne_of_not_mem ?_ (hn r (List.mem_cons_of_mem _ hr))
            intro he
            exact hraw (List.mem_map.mpr ⟨r, hr, he.trans hname⟩)

theorem build_types_iff {raws : List Introspection.TypeEntry} {types : List TypeDef} :
    buildAll [] raws = .ok types ↔
      (((ownEntries raws).map Introspection.TypeEntry.name).Nodup ∧
        ∀ raw ∈ ownEntries raws, raw.WellFormed) ∧
      List.Forall₂ TypeDef.Of (ownEntries raws) types := by
  rw [build_all_iff]
  simp only [build_iff, List.forall₂_and_left]
  constructor
  · intro h
    obtain ⟨ts, rfl, ⟨hw, ho⟩, hd, _⟩ := h
    exact ⟨⟨hd, hw⟩, ho⟩
  · intro h
    obtain ⟨⟨hd, hw⟩, ho⟩ := h
    exact ⟨types, rfl, ⟨hw, ho⟩, hd, fun _ _ => List.not_mem_nil⟩

end TypeDef

namespace Model

theorem check_root_iff {types : List TypeDef} {operation : String} {root : Option String} :
    checkRoot types operation root = .ok () ↔
      ∀ name, root = some name → ∃ t, types.find? (fun t => t.name = name) = some t ∧
        t.kind = .object := by
  cases root with
  | none => simp [checkRoot]
  | some name =>
    rw [checkRoot]
    cases hf : types.find? fun t => t.name = name with
    | none => simp [hf]
    | some t =>
      by_cases hk : t.kind = .object <;> simp [hf, hk]

/-- The definitions of a model name what the entries name. -/
theorem Of.names {s : Introspection.Schema} {m : Model} (h : m.Of s) :
    m.names = (ownEntries s.types).map Introspection.TypeEntry.name :=
  forall₂_map_eq h.types fun _ _ h => h.name

theorem Of.root_iff {s : Introspection.Schema} {m : Model} (h : m.Of s) (hn : m.names.Nodup)
    {name : String} :
    (∃ t, m.find? name = some t ∧ t.kind = .object) ↔
      ∃ raw ∈ ownEntries s.types, raw.name = name ∧ raw.kind = TypeKind.object.text := by
  constructor
  · intro hs
    obtain ⟨t, hf, hk⟩ := hs
    obtain ⟨ht, rfl⟩ := (find_iff hn).mp hf
    obtain ⟨raw, hraw, ho⟩ := forall₂_exists_left h.types.flip ht
    exact ⟨raw, hraw, ho.name.symm, by rw [← ho.kind, hk]⟩
  · intro hs
    obtain ⟨raw, hraw, rfl, hk⟩ := hs
    obtain ⟨t, ht, ho⟩ := forall₂_exists_left h.types hraw
    refine ⟨t, (find_iff hn).mpr ⟨ht, ho.name⟩, ?_⟩
    have hkind := TypeKind.of_text_iff.mpr (ho.kind.trans hk)
    exact (Option.some.inj hkind).symm

/-- Building gives the model of a schema, if the schema is well formed, and nothing else. -/
theorem of_schema_iff {s : Introspection.Schema} {m : Model} :
    ofSchema s = .ok m ↔ s.WellFormed ∧ m.Of s := by
  constructor
  · intro h
    have hb := built_of_schema h
    unfold ofSchema at h
    split at h
    · contradiction
    · contradiction
    · rename_i query hne hq
      obtain ⟨types, ht, h⟩ := bind_ok.mp h
      obtain ⟨_, h1, h⟩ := bind_ok.mp h
      obtain ⟨_, h2, h⟩ := bind_ok.mp h
      obtain ⟨_, h3, h⟩ := bind_ok.mp h
      obtain rfl := pure_ok.mp h
      obtain ⟨⟨hd, hw⟩, ho⟩ := TypeDef.build_types_iff.mp ht
      have hm : Model.Of s ⟨types, query, rootName s.mutationType, rootName s.subscriptionType⟩ :=
        ⟨ho, hq, rfl, rfl⟩
      refine ⟨⟨⟨query, hq, ?_⟩, hd, hw, ?_⟩, hm⟩
      · rintro rfl
        exact hne rfl
      · simp only [List.forall_mem_cons, ← hm.root_iff hb.names_distinct]
        refine ⟨?_, check_root_iff.mp h2, check_root_iff.mp h3, by simp⟩
        rw [hq]
        exact check_root_iff.mp h1
  · intro h
    obtain ⟨hw, ho⟩ := h
    have hn : m.names.Nodup := ho.names ▸ hw.distinct
    have hroots := hw.roots
    simp only [List.forall_mem_cons, ← ho.root_iff hn] at hroots
    obtain ⟨h1, h2, h3, _⟩ := hroots
    have ht := TypeDef.build_types_iff.mpr ⟨⟨hw.distinct, hw.entries⟩, ho.types⟩
    obtain ⟨types, query, mutation, subscription⟩ := m
    obtain ⟨_, hq, rfl, rfl⟩ := ho
    obtain ⟨_, hq', hne⟩ := hw.query
    rw [hq] at h1
    unfold ofSchema
    split
    · rename_i hr
      rw [hr] at hq
      contradiction
    · rename_i hr
      rw [hr] at hq'
      exact absurd (Option.some.inj hq').symm hne
    · rename_i hr
      obtain rfl := Option.some.inj (hr.symm.trans hq)
      exact bind_ok.mpr ⟨types, ht, bind_ok.mpr ⟨(), check_root_iff.mpr h1,
        bind_ok.mpr ⟨(), check_root_iff.mpr h2, bind_ok.mpr ⟨(), check_root_iff.mpr h3, rfl⟩⟩⟩⟩

/-- A model can be built of exactly the well-formed schemas. It holds what the schema says of each
entry, finds each definition under its name, and doubles no non-null mark. -/
theorem builds_well_formed (s : Introspection.Schema) :
    ((∃ m, ofSchema s = .ok m) ↔ s.WellFormed) ∧
    ∀ m, ofSchema s = .ok m →
      m.Of s ∧ m.names = (ownEntries s.types).map Introspection.TypeEntry.name ∧
      (∀ t ∈ m.types, m.find? t.name = some t) ∧ ∀ r ∈ m.refs, r.Regular := by
  refine ⟨⟨fun h => ?_, fun h => ?_⟩, fun m h => ?_⟩
  · obtain ⟨m, h⟩ := h
    exact (of_schema_iff.mp h).1
  · obtain ⟨m, hm⟩ := exists_of h
    exact ⟨m, of_schema_iff.mpr ⟨h, hm⟩⟩
  · have hb := built_of_schema h
    have ho := (of_schema_iff.mp h).2
    exact ⟨ho, ho.names, fun t ht => (find_iff hb.names_distinct).mpr ⟨ht, rfl⟩, hb.refs_regular⟩

/-- Two reserved entries of one name and no known kind, a field with an argument, an input field
inside two wrappers, and a mutation root without a name. -/
def forum : Introspection.Schema :=
  let input (name : String) (type : RefChain) : Introspection.InputValue :=
    ⟨name, .absent, .ofChain type, .filled "1"⟩
  let reserved : Introspection.TypeEntry :=
    ⟨"META", "__Type", .null, .absent, .absent, .absent, .absent, .absent⟩
  ⟨.filled ⟨.filled "Query"⟩, .filled ⟨.null⟩, .absent, [reserved,
    ⟨"OBJECT", "Query", .filled "The start", .filled [⟨"posts", .absent,
      .filled [input "first" (.link "NON_NULL" none (.last "SCALAR" (some "Int")))],
      .ofChain (.last "OBJECT" (some "Post")), .null, .absent⟩], .absent, .filled ["Node"],
      .absent, .absent⟩,
    reserved,
    ⟨"INPUT_OBJECT", "Filter", .absent, .absent, .filled [input "tags"
      (.link "LIST" none (.link "NON_NULL" none (.last "SCALAR" (some "String"))))], .absent,
      .absent, .absent⟩,
    ⟨"ENUM", "State", .absent, .absent, .absent, .absent,
      .filled [⟨"DRAFT", .absent, .filled true, .filled "unused"⟩, ⟨"LIVE", .null, .absent, .null⟩],
      .absent⟩]⟩

theorem builds_well_formed_forum : ∃ m, ofSchema forum = .ok m ∧ forum.WellFormed ∧ m.Of forum ∧
    m.names = ["Query", "Filter", "State"] ∧ (∀ t ∈ m.types, m.find? t.name = some t) ∧
    m.refs.map TypeRef.text = ["Post", "Int!", "[String!]"] ∧ ∀ r ∈ m.refs, r.Regular := by
  refine ⟨_, rfl, ?_⟩
  obtain ⟨hw, h⟩ := builds_well_formed forum
  obtain ⟨ho, hn, hf, hr⟩ := h _ rfl
  exact ⟨hw.mp ⟨_, rfl⟩, ho, hn, hf, rfl, hr⟩

end Model

end SchemaHistory
