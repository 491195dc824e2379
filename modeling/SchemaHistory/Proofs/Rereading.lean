import SchemaHistory.Proofs.Calls
import SchemaHistory.Proofs.Compatible
import SchemaHistory.Proofs.Counting

namespace SchemaHistory

theorem Slot.items_map {α β : Type} (f : α → β) (s : Slot (List α)) :
    (s.map (List.map f)).items = s.items.map f := by
  cases s <;> rfl

theorem Argument.build_settled (owner : String) (raws : Slot (List Introspection.InputValue)) :
    (raws.map (List.map Introspection.InputValue.settled)).items.mapM (Argument.build owner)
      = raws.items.mapM (Argument.build owner) := by
  rw [Slot.items_map, List.mapM_map]
  rfl

theorem Field.build_settled (owner : String) (raw : Introspection.Field) :
    Field.build owner raw.settled = Field.build owner raw := by
  have ha := fun location => Argument.build_settled location raw.args
  unfold Field.build
  dsimp only [Introspection.Field.settled]
  rw [ha]
  rfl

namespace TypeDef

theorem build_fields_settled (raw : Introspection.TypeEntry) :
    buildFields raw.settled = buildFields raw := by
  have hf : (raw.settled.fields.items).mapM (Field.build raw.name)
      = raw.fields.items.mapM (Field.build raw.name) := by
    rw [Introspection.TypeEntry.settled, Slot.items_map, List.mapM_map]
    exact congrArg (raw.fields.items.mapM ·) (funext (Field.build_settled raw.name))
  unfold buildFields
  rw [← hf]
  rfl

theorem build_body_settled (raw : Introspection.TypeEntry) (kind : TypeKind) :
    buildBody raw.settled kind = buildBody raw kind := by
  cases kind with
  | object =>
    rw [buildBody, buildBody, build_fields_settled]
    rfl
  | interface => rw [buildBody, buildBody, build_fields_settled]
  | inputObject =>
    rw [buildBody, buildBody, ← Argument.build_settled raw.name raw.inputFields]
    rfl
  | enum => rfl
  | union => rfl
  | scalar => rfl

theorem build_settled (raw : Introspection.TypeEntry) : build raw.settled = build raw := by
  have hb := fun kind => build_body_settled raw kind
  unfold build
  dsimp only [Introspection.TypeEntry.settled] at hb ⊢
  simp only [hb]

theorem build_all_settled (done : List TypeDef) (raws : List Introspection.TypeEntry) :
    buildAll done (raws.map Introspection.TypeEntry.settled) = buildAll done raws := by
  induction raws generalizing done with
  | nil => rfl
  | cons raw raws ih =>
    have hn : raw.settled.name = raw.name := rfl
    rw [List.map_cons, buildAll, buildAll, hn, build_settled, ih]
    simp only [ih]

end TypeDef

/-- What is left of a schema in its text is built into the same model: the builder looks at the
chain that a type reference spells, not at the rest of its value. -/
theorem Model.of_schema_settled (s : Introspection.Schema) :
    Model.ofSchema s.settled = Model.ofSchema s := by
  unfold Model.ofSchema
  dsimp only [Introspection.Schema.settled]
  rw [TypeDef.build_all_settled]

theorem ReadDocument.of_json_ok {document : Json} {current : ReadDocument}
    (h : ReadDocument.ofJson document = .ok current) :
    Introspection.parse document = .ok current.schema ∧
      Model.ofSchema current.schema = .ok current.model := by
  obtain ⟨schema, hs, h⟩ := bind_ok.mp h
  obtain ⟨model, hm, h⟩ := bind_ok.mp h
  cases h
  exact ⟨hs, hm⟩

namespace Snapshot

open Json Validation

theorem version_of_accepted {v : Option Json} {x : Binary64} (h : version? v = .accepted x) :
    v = some (.number x) ∧ x.isInteger = true ∧ 0 < x := by
  unfold version? at h
  split at h
  · rename_i y
    dsimp only at h
    by_cases hi : y.isInteger = true
    · by_cases hp : 0 < y
      · rw [if_pos hi, if_pos hp] at h
        cases h
        exact ⟨rfl, hi, hp⟩
      · rw [if_pos hi, if_neg hp] at h
        contradiction
    · rw [if_neg hi] at h
      contradiction
  · rename_i hv
    cases v with
    | none => contradiction
    | some v => contradiction

/-- The versions that are read from files are positive whole numbers. -/
theorem parse_version {text : String} {x : Snapshot} (h : parse text = .ok x) :
    x.version.isInteger = true ∧ 0 < x.version := by
  unfold parse at h
  split at h
  · contradiction
  · rename_i value _
    split at h
    · rename_i hd
      cases h
      cases value with
      | object ms =>
        obtain ⟨_, _, h1, -, rfl⟩ := seq_accepted hd
        obtain ⟨_, _, h2, hv, rfl⟩ := seq_accepted h1
        obtain ⟨_, _, h3, -, rfl⟩ := seq_accepted h2
        obtain ⟨_, _, h4, -, rfl⟩ := seq_accepted h3
        obtain ⟨_, -, rfl⟩ := map_accepted h4
        exact (version_of_accepted (under_accepted hv)).2
      | _ => contradiction
    · contradiction

/-- A snapshot with any version is read back from its file only if the version is a positive whole
number. -/
theorem readable_of_parsed {x y : Snapshot} (hc : x.Clear) (h : parse x.text = .ok y) :
    x.Readable := by
  unfold parse text at h
  rw [parse_pretty (to_json_distinct hc), to_json_parts, Json.settled, written_settled] at h
  dsimp only at h
  split at h
  · rename_i hd
    obtain ⟨_, _, h1, -, -⟩ := seq_accepted hd
    obtain ⟨_, v, -, hv, -⟩ := seq_accepted h1
    have hn : ((x.parts.map fun p => (p.1, p.2.map Json.settled)).map Prod.fst).Nodup :=
      (by decide : ["key", "schema", "timestamp", "version", "metadata"].Nodup)
    obtain ⟨hl, hi, h0⟩ := version_of_accepted (under_accepted hv)
    have hw : (written (x.parts.map fun p => (p.1, p.2.map Json.settled))).lookup "version"
        = some (Json.number x.version).settled := lookup_written hn rfl
    rw [hw] at hl
    have hx : x.version = v := by
      cases hxv : x.version with
      | finite u hu =>
        rw [hxv] at hl
        exact Json.number.inj (Option.some.inj hl)
      | _ =>
        rw [hxv] at hl
        exact nomatch Option.some.inj hl
    rw [← hx] at hi h0
    exact ⟨hi, h0, hc.schema, hc.metadata⟩
  · contradiction

theorem readable_of_document {key now : String} {document : Json} {current : ReadDocument}
    {version : Binary64} {metadata : List (String × Json)}
    (hr : ReadDocument.ofJson document = .ok current) (hd : document.Distinct)
    (hm : Json.Clear metadata) (hi : version.isInteger = true) (h0 : 0 < version) :
    (Snapshot.mk key current.schema now version (some metadata)).Readable := by
  obtain ⟨hp, _⟩ := ReadDocument.of_json_ok hr
  refine ⟨hi, h0, Introspection.parse_clear hd hp, ?_⟩
  intro ms hms
  cases hms
  exact hm

/-- A snapshot of a document is read back from its file as the same version of the same key, and
is built into the model of the document. -/
theorem reread {x : Snapshot} {model : Model} (hx : x.Readable)
    (hb : Model.ofSchema x.schema = .ok model) :
    ∃ y, parse x.text = .ok y ∧ y.key = x.key ∧ y.version = x.version ∧
      Model.ofSchema y.schema = .ok model :=
  ⟨x.settled.unreserved, parse_readable hx, rfl, rfl,
    (Model.of_schema_settled x.schema).trans hb⟩

end Snapshot

namespace Store

theorem snapshot_in_ok {path : Path} {tree : FileTree} {x : Snapshot}
    (h : snapshotIn path tree = .ok x) :
    ∃ text, tree = .file text ∧ Snapshot.parse text = .ok x := by
  cases tree with
  | directory es => contradiction
  | file text =>
    refine ⟨text, rfl, ?_⟩
    unfold snapshotIn at h
    dsimp only at h
    split at h
    · rename_i hp
      cases h
      exact hp
    · contradiction

/-- The latest version of a key has a positive whole number. -/
theorem load_whole {key : String} {s : Store} {x : Snapshot}
    (h : (load key s).answer = .ok (some x)) : x.version.isInteger = true ∧ 0 < x.version := by
  unfold load at h
  simp only [Action.read, directory_of_key] at h
  change s.snapshotAt? _ = _ at h
  unfold snapshotAt? at h
  split at h
  · cases h
  · rename_i tree _
    cases ht : snapshotIn (s.path ++ [Key.directoryName key] ++ [latestFile]) tree with
    | error failure =>
      rw [ht] at h
      cases h
    | ok y =>
      rw [ht] at h
      cases h
      obtain ⟨text, _, hp⟩ := snapshot_in_ok ht
      exact Snapshot.parse_version hp

end Store

namespace Registry

variable {r : Registry} {s : Store} {key : String} {v : Binary64}

/-- The next version of a key can be read back, whatever the latest one is. -/
theorem Due.positive {model : Model} (h : r.Due s key model v) :
    v.isInteger = true ∧ 0 < v := by
  cases h with
  | first _ => exact ⟨Binary64.numbered_one.integer, Binary64.numbered_one.positive⟩
  | next h _ _ =>
    obtain ⟨hi, h0⟩ := Store.load_whole h
    exact Binary64.next_whole hi h0

theorem Due.readable {document : Json} {current : ReadDocument}
    (h : r.Due s key current.model v) (hr : ReadDocument.ofJson document = .ok current)
    (hd : document.Distinct) (hm : Json.Clear r.metadata) :
    (Snapshot.mk key current.schema r.now v (some r.metadata)).Readable := by
  obtain ⟨hi, h0⟩ := h.positive
  exact Snapshot.readable_of_document hr hd hm hi h0

end Registry

namespace Introspection

/-- A schema whose only field has a scalar type. -/
def sizeSchema (scalar : String) : Schema :=
  .ofTypes "Query" [.object "Query" [("size", .last "SCALAR" (some scalar))]]

def sizeDocument (scalar : String) : Json :=
  .object [("__schema", (sizeSchema scalar).toJson)]

theorem size_document_distinct (scalar : String) : (sizeDocument scalar).Distinct :=
  ⟨by simp, Schema.faithful.distinct _ (object_clear _ _ _) _ rfl, trivial⟩

end Introspection

/-- A schema that is built is read from the document that holds it. -/
theorem ReadDocument.of_written {schema : Introspection.Schema} {model : Model}
    (h : Model.ofSchema schema = .ok model) :
    ofJson (.object [("__schema", schema.toJson)]) = .ok ⟨schema, model⟩ :=
  bind_ok.mpr ⟨schema, Introspection.parse_written schema, bind_ok.mpr ⟨model, h, rfl⟩⟩

/-- So is one whose document is given as text. -/
theorem ReadDocument.of_text {schema : Introspection.Schema} {model : Model}
    (hs : schema.Clear) (h : Model.ofSchema schema = .ok model) :
    ofJson (.string (Json.object [("__schema", schema.toJson)]).pretty)
      = .ok ⟨schema.settled, model⟩ := by
  refine bind_ok.mpr ⟨schema.settled, ?_, ?_⟩
  · exact Introspection.parse_printed hs List.mem_cons_self (.inr rfl)
  · exact bind_ok.mpr ⟨model, (Model.of_schema_settled schema).trans h, rfl⟩

theorem ReadDocument.of_size_document {scalar : String} {model : Model}
    (h : Model.ofSchema (Introspection.sizeSchema scalar) = .ok model) :
    ofJson (Introspection.sizeDocument scalar)
      = .ok ⟨Introspection.sizeSchema scalar, model⟩ :=
  of_written h

theorem Model.size_changes :
    (sizeModel (.named "Int")).changes .baseName (sizeModel (.named "Float")) ≠ [] := by
  decide

end SchemaHistory
