import SchemaHistory.Introspection.Document
import SchemaHistory.Proofs.Faithful
import SchemaHistory.Proofs.Lexemes

namespace SchemaHistory

open Json Validation

theorem lookup_settled (name : String) (ms : List (String × Json)) :
    (settledMembers ms).lookup name = (ms.lookup name).map settled := by
  induction ms with
  | nil => rfl
  | cons m ms ih =>
    obtain ⟨n, v⟩ := m
    rw [settledMembers, List.lookup_cons, List.lookup_cons, ih]
    split <;> rfl

namespace RefChain

theorem name_settled {ms : List (String × Json)} {name : Option String}
    (h : nameOf? ms = some name) : nameOf? (settledMembers ms) = some name := by
  unfold nameOf? at h ⊢
  rw [lookup_settled]
  split at h
  · rename_i hl
    rw [hl]
    exact h
  · rename_i hl
    rw [hl]
    exact h
  · rename_i hl
    rw [hl]
    exact h
  · contradiction

theorem of_json_object {ms : List (String × Json)} {chain : RefChain}
    (h : ofJson? (.object ms) = some chain) : ∃ kind name inner,
      ms.lookup "kind" = some (.string kind) ∧ nameOf? ms = some name ∧ inner? ms = some inner ∧
        chain = inner.elim (.last kind name) (.link kind name) := by
  unfold ofJson? at h
  split at h
  · rename_i kind name hk hn hi
    exact ⟨kind, name, none, hk, hn, hi, (Option.some.inj h).symm⟩
  · rename_i kind name inner hk hn hi
    exact ⟨kind, name, some inner, hk, hn, hi, (Option.some.inj h).symm⟩
  · contradiction

theorem json_of_object {ms : List (String × Json)} {kind : String} {name : Option String}
    {inner : Option RefChain} (hk : ms.lookup "kind" = some (.string kind))
    (hn : nameOf? ms = some name) (hi : inner? ms = some inner) :
    ofJson? (.object ms) = some (inner.elim (.last kind name) (.link kind name)) := by
  unfold ofJson?
  cases inner <;> rw [hk, hn, hi] <;> rfl

theorem inner_skip {name : String} (hn : name ≠ "ofType") (v : Json)
    (ms : List (String × Json)) : inner? ((name, v) :: ms) = inner? ms := by
  cases v <;> simp only [inner?, hn, ↓reduceIte]

mutual

/-- A chain does not depend on numbers. -/
theorem of_json_settled : (v : Json) → (chain : RefChain) → ofJson? v = some chain →
    ofJson? v.settled = some chain
  | .object ms, chain, h => by
    obtain ⟨kind, name, inner, hk, hn, hi, rfl⟩ := of_json_object h
    refine json_of_object ?_ (name_settled hn) (inner_settled ms inner hi)
    rw [lookup_settled, hk]
    rfl
  | .null, _, h => by contradiction
  | .bool _, _, h => by contradiction
  | .number _, _, h => by contradiction
  | .string _, _, h => by contradiction
  | .array _, _, h => by contradiction

theorem inner_settled : (ms : List (String × Json)) → (inner : Option RefChain) →
    inner? ms = some inner → inner? (settledMembers ms) = some inner
  | [], _, h => h
  | (name, v) :: ms, inner, h => by
    by_cases hn : name = "ofType"
    · subst hn
      cases v with
      | null => exact h
      | object ns =>
        obtain ⟨chain, hc, rfl⟩ := Option.map_eq_some_iff.mp h
        exact congrArg (Option.map some) (of_json_settled (.object ns) chain hc)
      | _ => contradiction
    · rw [inner_skip hn] at h
      exact (inner_skip hn _ _).trans (inner_settled ms inner h)

end

end RefChain

namespace Introspection

def RawRef.settled (r : RawRef) : RawRef :=
  ⟨r.json.settled, r.chain, RefChain.of_json_settled r.json r.chain r.spells⟩

def RawRef.Clear (r : RawRef) : Prop :=
  r.json.Distinct

theorem type_ref_accepted {v : Json} {r : RawRef} :
    typeRef (some v) = .accepted r ↔ r.json = v := by
  constructor
  · intro h
    unfold typeRef RawRef.ofJson? at h
    rw [Option.bind_some] at h
    split at h
    · rename_i hr
      split at hr
      · cases hr
        cases h
        rfl
      · contradiction
    · contradiction
  · intro he
    subst he
    obtain ⟨json, chain, spells⟩ := r
    unfold typeRef RawRef.ofJson?
    rw [Option.bind_some]
    split
    · rename_i hr
      split at hr
      · rename_i hs
        cases hr
        cases spells.symm.trans hs
        rfl
      · contradiction
    · rename_i hr
      split at hr
      · contradiction
      · rename_i hs
        cases spells.symm.trans hs

theorem RawRef.faithful : Faithful (fun r => some r.json) typeRef RawRef.settled RawRef.Clear where
  decoded r := type_ref_accepted.mpr rfl
  settled _ := rfl
  distinct _ h := by
    intro v hm
    cases hm
    exact h
  cleared o r hv h := by
    cases o with
    | none => cases h
    | some v =>
      rw [RawRef.Clear, type_ref_accepted.mp h]
      exact hv v rfl

theorem slot_text : Faithful (fun s : Slot String => s.json? .string) (nullable text) (Slot.map id)
    (∀ a ∈ ·.value?, True) :=
  Faithful.text.slot (by simp)

theorem slot_flag : Faithful (fun s : Slot Bool => s.json? .bool) (nullable flag) (Slot.map id)
    (∀ a ∈ ·.value?, True) :=
  Faithful.flag.slot (by simp)

namespace InputValue

def parts (v : InputValue) : List (String × Option Json) :=
  [("name", some (.string v.name)), ("description", v.description.json? .string),
    ("type", some v.type.json), ("defaultValue", v.defaultValue.json? .string)]

def settled (v : InputValue) : InputValue :=
  { v with type := v.type.settled }

def Clear (v : InputValue) : Prop :=
  v.type.Clear

theorem to_json_parts (v : InputValue) : v.toJson = .object (written v.parts) := by
  simp [toJson, parts, written, Slot.to_member_json, member?]

theorem faithful : Faithful (fun v => some (toJson v)) inputValue settled Clear := by
  refine .record ["name", "description", "type", "defaultValue"] (by decide) (fun _ => rfl)
    to_json_parts ?_ ?_ ?_ ?_
  · intro v hn
    rw [Faithful.text.member_decoded hn "name" v.name rfl,
      slot_text.member_decoded hn "description" v.description rfl,
      RawRef.faithful.member_decoded hn "type" v.type rfl,
      slot_text.member_decoded hn "defaultValue" v.defaultValue rfl]
    rfl
  · intro v
    simp only [parts, List.map_cons, List.map_nil, slot_text.settled, Slot.map_id]
    rfl
  · intro v h
    simp only [parts, List.forall_mem_cons]
    exact ⟨Faithful.text.distinct _ trivial, slot_text.distinct _ (by simp),
      RawRef.faithful.distinct _ h, slot_text.distinct _ (by simp), by simp⟩
  · intro ms v hm h
    obtain ⟨_, _, h1, -, rfl⟩ := seq_accepted h
    obtain ⟨_, _, h2, h3, rfl⟩ := seq_accepted h1
    obtain ⟨_, _, h4, -, rfl⟩ := seq_accepted h2
    obtain ⟨_, -, rfl⟩ := map_accepted h4
    exact RawRef.faithful.member_cleared hm h3

end InputValue

theorem slot_input_values : Faithful (fun s : Slot (List InputValue) => s.json? inputValuesJson)
    (nullable (listOf inputValue)) (Slot.map (List.map InputValue.settled))
    (∀ vs ∈ ·.value?, ∀ v ∈ vs, v.Clear) :=
  InputValue.faithful.list.slot (by simp)

namespace Field

def parts (f : Field) : List (String × Option Json) :=
  [("name", some (.string f.name)), ("description", f.description.json? .string),
    ("args", f.args.json? inputValuesJson), ("type", some f.type.json),
    ("isDeprecated", f.isDeprecated.json? .bool),
    ("deprecationReason", f.deprecationReason.json? .string)]

def settled (f : Field) : Field :=
  { f with args := f.args.map (List.map InputValue.settled), type := f.type.settled }

def Clear (f : Field) : Prop :=
  (∀ vs ∈ f.args.value?, ∀ v ∈ vs, v.Clear) ∧ f.type.Clear

theorem to_json_parts (f : Field) : f.toJson = .object (written f.parts) := by
  simp [toJson, parts, written, Slot.to_member_json, member?]

theorem faithful : Faithful (fun f => some (toJson f)) field settled Clear := by
  refine .record ["name", "description", "args", "type", "isDeprecated", "deprecationReason"]
    (by decide) (fun _ => rfl) to_json_parts ?_ ?_ ?_ ?_
  · intro f hn
    rw [Faithful.text.member_decoded hn "name" f.name rfl,
      slot_text.member_decoded hn "description" f.description rfl,
      slot_input_values.member_decoded hn "args" f.args rfl,
      RawRef.faithful.member_decoded hn "type" f.type rfl,
      slot_flag.member_decoded hn "isDeprecated" f.isDeprecated rfl,
      slot_text.member_decoded hn "deprecationReason" f.deprecationReason rfl]
    rfl
  · intro f
    simp only [parts, List.map_cons, List.map_nil, slot_text.settled, slot_flag.settled,
      slot_input_values.settled, Slot.map_id]
    rfl
  · intro f h
    simp only [parts, List.forall_mem_cons]
    exact ⟨Faithful.text.distinct _ trivial, slot_text.distinct _ (by simp),
      slot_input_values.distinct _ h.1, RawRef.faithful.distinct _ h.2,
      slot_flag.distinct _ (by simp), slot_text.distinct _ (by simp), by simp⟩
  · intro ms f hm h
    obtain ⟨_, _, h1, -, rfl⟩ := seq_accepted h
    obtain ⟨_, _, h2, -, rfl⟩ := seq_accepted h1
    obtain ⟨_, _, h3, ht, rfl⟩ := seq_accepted h2
    obtain ⟨_, _, h4, ha, rfl⟩ := seq_accepted h3
    obtain ⟨_, _, h5, -, rfl⟩ := seq_accepted h4
    obtain ⟨_, -, rfl⟩ := map_accepted h5
    exact ⟨slot_input_values.member_cleared hm ha, RawRef.faithful.member_cleared hm ht⟩

end Field

namespace EnumValue

def parts (v : EnumValue) : List (String × Option Json) :=
  [("name", some (.string v.name)), ("description", v.description.json? .string),
    ("isDeprecated", v.isDeprecated.json? .bool),
    ("deprecationReason", v.deprecationReason.json? .string)]

theorem to_json_parts (v : EnumValue) : v.toJson = .object (written v.parts) := by
  simp [toJson, parts, written, Slot.to_member_json, member?]

theorem faithful : Faithful (fun v => some (toJson v)) enumValue id fun _ => True := by
  refine .record ["name", "description", "isDeprecated", "deprecationReason"] (by decide)
    (fun _ => rfl) to_json_parts ?_ ?_ ?_ fun _ _ _ _ => trivial
  · intro v hn
    rw [Faithful.text.member_decoded hn "name" v.name rfl,
      slot_text.member_decoded hn "description" v.description rfl,
      slot_flag.member_decoded hn "isDeprecated" v.isDeprecated rfl,
      slot_text.member_decoded hn "deprecationReason" v.deprecationReason rfl]
    rfl
  · intro v
    simp only [parts, List.map_cons, List.map_nil, slot_text.settled, slot_flag.settled,
      Slot.map_id]
    rfl
  · intro v _
    simp only [parts, List.forall_mem_cons]
    exact ⟨Faithful.text.distinct _ trivial, slot_text.distinct _ (by simp),
      slot_flag.distinct _ (by simp), slot_text.distinct _ (by simp), by simp⟩

end EnumValue

def nameParts (n : String) : List (String × Option Json) :=
  [("name", some (.string n))]

theorem name_json_parts (n : String) :
    Json.object [("name", .string n)] = .object (written (nameParts n)) :=
  rfl

theorem name_faithful : Faithful (fun n => some (.object [("name", .string n)])) name id
    fun _ => True := by
  refine .record ["name"] (by decide) (fun _ => rfl) name_json_parts ?_ (fun _ => rfl) ?_
    fun _ _ _ _ => trivial
  · intro n hn
    exact Faithful.text.member_decoded hn "name" n rfl
  · intro n _
    simp only [nameParts, List.forall_mem_cons]
    exact ⟨Faithful.text.distinct _ trivial, by simp⟩

theorem slot_names : Faithful (fun s : Slot (List String) => s.json? namesJson)
    (nullable (listOf name)) (Slot.map (List.map id)) (∀ ns ∈ ·.value?, ∀ n ∈ ns, True) :=
  name_faithful.list.slot (by simp)

theorem slot_fields : Faithful
    (fun s : Slot (List Field) => s.json? fun fs => .array (fs.map Field.toJson))
    (nullable (listOf field)) (Slot.map (List.map Field.settled))
    (∀ fs ∈ ·.value?, ∀ f ∈ fs, f.Clear) :=
  Field.faithful.list.slot (by simp)

theorem slot_enum_values : Faithful
    (fun s : Slot (List EnumValue) => s.json? fun vs => .array (vs.map EnumValue.toJson))
    (nullable (listOf enumValue)) (Slot.map (List.map id)) (∀ vs ∈ ·.value?, ∀ v ∈ vs, True) :=
  EnumValue.faithful.list.slot (by simp)

namespace TypeEntry

def parts (t : TypeEntry) : List (String × Option Json) :=
  [("kind", some (.string t.kind)), ("name", some (.string t.name)),
    ("description", t.description.json? .string),
    ("fields", t.fields.json? fun fs => .array (fs.map Field.toJson)),
    ("inputFields", t.inputFields.json? inputValuesJson),
    ("interfaces", t.interfaces.json? namesJson),
    ("enumValues", t.enumValues.json? fun vs => .array (vs.map EnumValue.toJson)),
    ("possibleTypes", t.possibleTypes.json? namesJson)]

def settled (t : TypeEntry) : TypeEntry :=
  { t with
    fields := t.fields.map (List.map Field.settled)
    inputFields := t.inputFields.map (List.map InputValue.settled) }

def Clear (t : TypeEntry) : Prop :=
  (∀ fs ∈ t.fields.value?, ∀ f ∈ fs, f.Clear) ∧ ∀ vs ∈ t.inputFields.value?, ∀ v ∈ vs, v.Clear

theorem to_json_parts (t : TypeEntry) : t.toJson = .object (written t.parts) := by
  simp [toJson, parts, written, Slot.to_member_json, member?]

theorem faithful : Faithful (fun t => some (toJson t)) typeEntry settled Clear := by
  refine .record ["kind", "name", "description", "fields", "inputFields", "interfaces",
    "enumValues", "possibleTypes"] (by decide) (fun _ => rfl) to_json_parts ?_ ?_ ?_ ?_
  · intro t hn
    rw [Faithful.text.member_decoded hn "kind" t.kind rfl,
      Faithful.text.member_decoded hn "name" t.name rfl,
      slot_text.member_decoded hn "description" t.description rfl,
      slot_fields.member_decoded hn "fields" t.fields rfl,
      slot_input_values.member_decoded hn "inputFields" t.inputFields rfl,
      slot_names.member_decoded hn "interfaces" t.interfaces rfl,
      slot_enum_values.member_decoded hn "enumValues" t.enumValues rfl,
      slot_names.member_decoded hn "possibleTypes" t.possibleTypes rfl]
    rfl
  · intro t
    simp only [parts, List.map_cons, List.map_nil, slot_text.settled, slot_fields.settled,
      slot_input_values.settled, slot_names.settled, slot_enum_values.settled, List.map_id_fun,
      Slot.map_id]
    rfl
  · intro t h
    simp only [parts, List.forall_mem_cons]
    exact ⟨Faithful.text.distinct _ trivial, Faithful.text.distinct _ trivial,
      slot_text.distinct _ (by simp), slot_fields.distinct _ h.1,
      slot_input_values.distinct _ h.2, slot_names.distinct _ (by simp),
      slot_enum_values.distinct _ (by simp), slot_names.distinct _ (by simp), by simp⟩
  · intro ms t hm h
    obtain ⟨_, _, h1, -, rfl⟩ := seq_accepted h
    obtain ⟨_, _, h2, -, rfl⟩ := seq_accepted h1
    obtain ⟨_, _, h3, -, rfl⟩ := seq_accepted h2
    obtain ⟨_, _, h4, hv, rfl⟩ := seq_accepted h3
    obtain ⟨_, _, h5, hf, rfl⟩ := seq_accepted h4
    obtain ⟨_, _, h6, -, rfl⟩ := seq_accepted h5
    obtain ⟨_, _, h7, -, rfl⟩ := seq_accepted h6
    obtain ⟨_, -, rfl⟩ := map_accepted h7
    exact ⟨slot_fields.member_cleared hm hf, slot_input_values.member_cleared hm hv⟩

end TypeEntry

namespace Root

def parts (r : Root) : List (String × Option Json) :=
  [("name", r.name.json? .string)]

theorem to_json_parts (r : Root) : r.toJson = .object (written r.parts) := by
  simp [toJson, parts, written, Slot.to_member_json]

theorem faithful : Faithful (fun r => some (toJson r)) root id fun _ => True := by
  refine .record ["name"] (by decide) (fun _ => rfl) to_json_parts ?_ ?_ ?_ fun _ _ _ _ => trivial
  · intro r hn
    rw [slot_text.member_decoded hn "name" r.name rfl]
    rfl
  · intro r
    simp only [parts, List.map_cons, List.map_nil, slot_text.settled, Slot.map_id]
    rfl
  · intro r _
    simp only [parts, List.forall_mem_cons]
    exact ⟨slot_text.distinct _ (by simp), by simp⟩

end Root

theorem slot_root : Faithful (fun s : Slot Root => s.json? Root.toJson) (nullable root)
    (Slot.map id) (∀ r ∈ ·.value?, True) :=
  Root.faithful.slot (by simp [Root.toJson])

namespace Schema

def parts (s : Schema) : List (String × Option Json) :=
  [("queryType", s.queryType.json? Root.toJson), ("mutationType", s.mutationType.json? Root.toJson),
    ("subscriptionType", s.subscriptionType.json? Root.toJson),
    ("types", some (.array (s.types.map TypeEntry.toJson)))]

/-- What is left of a schema in its text. Only the parts of type references that are not read can
hold numbers. -/
def settled (s : Schema) : Schema :=
  { s with types := s.types.map TypeEntry.settled }

/-- No type reference of a schema names a member twice. -/
def Clear (s : Schema) : Prop :=
  ∀ t ∈ s.types, t.Clear

theorem to_json_parts (s : Schema) : s.toJson = .object (written s.parts) := by
  simp [toJson, parts, written, Slot.to_member_json, member?]

/-- A schema can be read back from the JSON that it is written as. -/
theorem faithful : Faithful (fun s => some (toJson s)) schema settled Clear := by
  refine .record ["queryType", "mutationType", "subscriptionType", "types"] (by decide)
    (fun _ => rfl) to_json_parts ?_ ?_ ?_ ?_
  · intro s hn
    rw [slot_root.member_decoded hn "queryType" s.queryType rfl,
      slot_root.member_decoded hn "mutationType" s.mutationType rfl,
      slot_root.member_decoded hn "subscriptionType" s.subscriptionType rfl,
      TypeEntry.faithful.list.member_decoded hn "types" s.types rfl]
    rfl
  · intro s
    simp only [parts, List.map_cons, List.map_nil, slot_root.settled,
      TypeEntry.faithful.list.settled, Slot.map_id]
    rfl
  · intro s h
    simp only [parts, List.forall_mem_cons]
    exact ⟨slot_root.distinct _ (by simp), slot_root.distinct _ (by simp),
      slot_root.distinct _ (by simp), TypeEntry.faithful.list.distinct _ h, by simp⟩
  · intro ms s hm h
    obtain ⟨_, _, h1, ht, rfl⟩ := seq_accepted h
    obtain ⟨_, _, h2, -, rfl⟩ := seq_accepted h1
    obtain ⟨_, _, h3, -, rfl⟩ := seq_accepted h2
    obtain ⟨_, -, rfl⟩ := map_accepted h3
    exact TypeEntry.faithful.list.member_cleared hm ht

theorem json_settled (s : Schema) : s.toJson.settled = s.settled.toJson :=
  Option.some.inj (faithful.settled s)

theorem json_distinct {s : Schema} (h : s.Clear) : s.toJson.Distinct :=
  faithful.distinct s h _ rfl

/-- The documents that hold a schema: the data of an answer, and the response around it. -/
def documents (s : Schema) : List Json :=
  [.object [("__schema", s.toJson)], .object [("data", .object [("__schema", s.toJson)])]]

theorem documents_settled {s : Schema} {v : Json} (h : v ∈ s.documents) :
    v.settled ∈ s.settled.documents := by
  simp only [documents, List.mem_cons, List.not_mem_nil, or_false] at h
  rcases h with rfl | rfl <;>
    simp [documents, Json.settled, settledMembers, json_settled]

theorem documents_distinct {s : Schema} (hs : s.Clear) {v : Json} (h : v ∈ s.documents) :
    v.Distinct := by
  simp only [documents, List.mem_cons, List.not_mem_nil, or_false] at h
  rcases h with rfl | rfl <;>
    simp [Json.Distinct, DistinctMembers, json_distinct hs]

end Schema

/-- The value that a document stands for: a text stands for what is read from it. -/
def standsFor? : Json → Option Json
  | .string text => parseLenient? text
  | v => some v

theorem stands_distinct {d v : Json} (hd : d.Distinct) (h : standsFor? d = some v) :
    v.Distinct := by
  cases d with
  | string text => exact parse_lenient_distinct h
  | _ =>
    cases h
    exact hd

theorem decode_envelope_ok {v : Json} {s : Schema} (h : decodeEnvelope v = .ok s) :
    ∃ ms, v = .object ms ∧ schema (ms.lookup "__schema") = .accepted s := by
  unfold decodeEnvelope at h
  split at h
  · rename_i he
    cases h
    cases v with
    | object ms => exact ⟨ms, rfl, under_accepted he⟩
    | _ => cases he
  · contradiction

/-- The schema of an answer is in the answer itself, or in its data. -/
theorem of_value_ok {v : Json} {s : Schema} (h : ofValue v = .ok s) :
    ∃ ms, (v = .object ms ∨ v.get? "data" = some (.object ms)) ∧
      schema (ms.lookup "__schema") = .accepted s := by
  unfold ofValue at h
  split at h
  · obtain ⟨ms, hv, hs⟩ := decode_envelope_ok h
    exact ⟨ms, .inl hv, hs⟩
  · rename_i hd
    obtain ⟨ms, he, hs⟩ := decode_envelope_ok h
    exact ⟨ms, .inr (hd.trans (congrArg some he)), hs⟩
  · rename_i hd
    split at h
    · contradiction
    · obtain ⟨ms, rfl, hs⟩ := decode_envelope_ok h
      exact ⟨ms, .inr hd, hs⟩

theorem parse_stands {d v : Json} (h : standsFor? d = some v) : parse d = ofValue v := by
  cases d with
  | string text =>
    have hv : valueOfText text = .ok v := by
      change parseLenient? text = some v at h
      rw [valueOfText, h]
    rw [parse, hv]
  | _ =>
    cases h
    rfl

/-- A schema is read from a member of the value that its document stands for. -/
theorem parse_ok {d : Json} {s : Schema} (h : parse d = .ok s) :
    ∃ v ms, standsFor? d = some v ∧ (v = .object ms ∨ v.get? "data" = some (.object ms)) ∧
      schema (ms.lookup "__schema") = .accepted s := by
  cases hv : standsFor? d with
  | some v =>
    rw [parse_stands hv] at h
    obtain ⟨ms, hm, hs⟩ := of_value_ok h
    exact ⟨v, ms, rfl, hm, hs⟩
  | none =>
    cases d with
    | string text =>
      change parseLenient? text = none at hv
      rw [parse, valueOfText, hv] at h
      contradiction
    | _ => cases hv

/-- What holds of all that is inside a value holds of the schema that is read from it. -/
theorem schema_inside {P : Json → Prop} (hP : ∀ ms, P (.object ms) → ∀ m ∈ ms, P m.2) {v : Json}
    (hv : P v) {ms : List (String × Json)}
    (hm : v = .object ms ∨ v.get? "data" = some (.object ms)) :
    ∀ w ∈ ms.lookup "__schema", P w := by
  have hms : P (.object ms) := by
    rcases hm with rfl | hm
    · exact hv
    · cases v with
      | object ns => exact hP ns hv _ (mem_of_lookup hm)
      | _ => cases hm
  exact fun w hw => hP ms hms _ (mem_of_lookup hw)

/-- No type reference of a schema that was read names a member twice. -/
theorem parse_clear {d : Json} {s : Schema} (hd : d.Distinct) (h : parse d = .ok s) : s.Clear := by
  obtain ⟨v, ms, hv, hm, hs⟩ := parse_ok h
  refine Schema.faithful.cleared _ s ?_ hs
  exact schema_inside (fun _ h => (distinct_object.mp h).2) (stands_distinct hd hv) hm

/-- A written schema is the document of that schema. -/
theorem parse_written (s : Schema) : parse (.object [("__schema", s.toJson)]) = .ok s := by
  have he : envelope (some (.object [("__schema", s.toJson)])) = .accepted s := by
    change (schema (some s.toJson)).under _ = _
    rw [Schema.faithful.decoded]
    rfl
  have hd : parse (.object [("__schema", s.toJson)])
      = decodeEnvelope (.object [("__schema", s.toJson)]) := rfl
  rw [hd, decodeEnvelope, he]

theorem parse_document {s : Schema} {v : Json} (h : v ∈ s.documents) : parse v = .ok s := by
  simp only [Schema.documents, List.mem_cons, List.not_mem_nil, or_false] at h
  rcases h with rfl | rfl
  · exact parse_written s
  · exact parse_written s

theorem document_stands {s : Schema} {v : Json} (h : v ∈ s.documents) :
    standsFor? v = some v := by
  simp only [Schema.documents, List.mem_cons, List.not_mem_nil, or_false] at h
  rcases h with rfl | rfl <;> rfl

/-- A text that is read as a document of a schema is one itself. -/
theorem parse_document_text {s : Schema} {v : Json} (h : v ∈ s.documents) {text : String}
    (ht : parse? text = some v) : parse (.string text) = .ok s := by
  have hv : standsFor? (.string text) = some v := parse_lenient_of_parse ht
  rw [parse_stands hv, ← parse_stands (document_stands h), parse_document h]

/-- What is left of a schema in the text of a document is read from that text. -/
theorem parse_printed {s : Schema} (hs : s.Clear) {v : Json} (h : v ∈ s.documents) {text : String}
    (ht : text = v.compact ∨ text = v.pretty) : parse (.string text) = .ok s.settled := by
  have hd := Schema.documents_distinct hs h
  refine parse_document_text (Schema.documents_settled h) ?_
  rcases ht with rfl | rfl
  · exact parse_compact hd
  · exact parse_pretty hd

end Introspection

end SchemaHistory
