import SchemaHistory.Proofs.SchemaText
import SchemaHistory.Proofs.WholeNumbers

namespace SchemaHistory

open Json Validation

namespace Snapshot

/-- No object of a snapshot names a member twice. -/
structure Clear (s : Snapshot) : Prop where
  schema : s.schema.Clear
  metadata : ∀ ms ∈ s.metadata, Json.Clear ms

/-- The snapshots that can be read back from their files: the version is a positive whole number,
and no object names a member twice. -/
structure Readable (s : Snapshot) : Prop where
  integer : s.version.isInteger = true
  positive : 0 < s.version
  schema : s.schema.Clear
  metadata : ∀ ms ∈ s.metadata, Json.Clear ms

theorem Readable.clear {s : Snapshot} (h : s.Readable) : s.Clear :=
  ⟨h.schema, h.metadata⟩

/-- The snapshots that are read back as they are: the version can also be counted, and the reserved
name is not in the metadata. -/
structure Proper (s : Snapshot) : Prop where
  version : s.version.Counted
  schema : s.schema.Clear
  metadata : ∀ ms ∈ s.metadata, Json.Clear ms ∧ ∀ m ∈ ms, m.1 ≠ "__proto__"

theorem Proper.unreserved {s : Snapshot} (h : s.Proper) :
    ∀ ms ∈ s.metadata, ∀ m ∈ ms, m.1 ≠ "__proto__" :=
  fun ms hms => (h.metadata ms hms).2

theorem Proper.readable {s : Snapshot} (h : s.Proper) : s.Readable :=
  ⟨h.version.numbered.integer, h.version.numbered.positive, h.schema,
    fun ms hms => (h.metadata ms hms).1⟩

/-- What is left of a snapshot in its text. -/
def settled (s : Snapshot) : Snapshot :=
  { s with schema := s.schema.settled, metadata := s.metadata.map settledMembers }

def parts (s : Snapshot) : List (String × Option Json) :=
  [("key", some (.string s.key)), ("schema", some s.schema.toJson),
    ("timestamp", some (.string s.timestamp)), ("version", some (.number s.version)),
    ("metadata", s.metadata.map .object)]

theorem to_json_parts (s : Snapshot) : s.toJson = .object (written s.parts) := by
  simp [toJson, parts, written, member?]

/-- A snapshot without the members of its metadata that have the reserved name. -/
def unreserved (s : Snapshot) : Snapshot :=
  { s with metadata := s.metadata.map (List.filter fun m => m.1 != "__proto__") }

theorem unreserved_self {s : Snapshot} (h : ∀ ms ∈ s.metadata, ∀ m ∈ ms, m.1 ≠ "__proto__") :
    s.unreserved = s := by
  obtain ⟨key, schema, timestamp, version, metadata⟩ := s
  cases metadata with
  | none => rfl
  | some ms =>
    have hf : ms.filter (fun m => m.1 != "__proto__") = ms :=
      List.filter_eq_self.mpr fun m hm => by simpa using h ms rfl m hm
    rw [unreserved, Option.map_some, hf]

theorem version_finite {x : Binary64} (h : x.isInteger = true) : (Json.number x).Finite := by
  cases x with
  | finite u fits => trivial
  | _ => contradiction

theorem to_json_settled {s : Snapshot} (h : s.Readable) : s.toJson.settled = s.settled.toJson := by
  rw [to_json_parts, to_json_parts, Json.settled, written_settled]
  simp only [parts, List.map_cons, List.map_nil, Option.map_some,
    Introspection.Schema.json_settled, settled_finite _ (version_finite h.integer)]
  cases hm : s.metadata <;> simp [settled, hm, Json.settled]

theorem to_json_distinct {s : Snapshot} (h : s.Clear) : s.toJson.Distinct := by
  rw [to_json_parts]
  refine written_clear (by decide : ["key", "schema", "timestamp", "version", "metadata"].Nodup) ?_
  simp only [parts, List.forall_mem_cons]
  refine ⟨Faithful.text.distinct _ trivial, Introspection.Schema.faithful.distinct _ h.schema,
    Faithful.text.distinct _ trivial, by simp [Distinct], ?_, by simp⟩
  intro v hv
  obtain ⟨ms, hm, rfl⟩ := Option.map_eq_some_iff.mp hv
  exact distinct_object.mpr (h.metadata ms hm)

theorem version_accepted {x : Binary64} (hi : x.isInteger = true) (hp : 0 < x) :
    version? (some (.number x)) = .accepted x := by
  simp [version?, hi, hp]

theorem metadata_accepted (metadata : Option (List (String × Json))) :
    metadata? (metadata.map .object)
      = .accepted (metadata.map (List.filter fun m => m.1 != "__proto__")) := by
  cases metadata <;> rfl

theorem decode_to_json {s : Snapshot} (hi : s.version.isInteger = true) (hp : 0 < s.version) :
    decode (some s.toJson) = .accepted s.unreserved := by
  have hn : (s.parts.map Prod.fst).Nodup :=
    (by decide : ["key", "schema", "timestamp", "version", "metadata"].Nodup)
  rw [to_json_parts, decode, objectOf, Faithful.text.member_decoded hn "key" s.key rfl,
    Introspection.Schema.faithful.member_decoded hn "schema" s.schema rfl,
    Faithful.text.member_decoded hn "timestamp" s.timestamp rfl,
    member_written hn rfl (version_accepted hi hp), member_written hn rfl (metadata_accepted _)]
  rfl

theorem settled_unreserved {s : Snapshot} (h : ∀ ms ∈ s.metadata, ∀ m ∈ ms, m.1 ≠ "__proto__") :
    s.settled.unreserved = s.settled := by
  refine unreserved_self fun ms hms m hm => ?_
  obtain ⟨ns, hns, rfl⟩ := Option.map_eq_some_iff.mp hms
  rw [settled_members_map] at hm
  obtain ⟨n, hn, rfl⟩ := List.mem_map.mp hm
  exact h ns hns n hn

/-- A snapshot can be read back from its file, less what is reserved. -/
theorem parse_readable {s : Snapshot} (h : s.Readable) :
    parse s.text = .ok s.settled.unreserved := by
  have hi : s.settled.version.isInteger = true := h.integer
  unfold parse text
  rw [parse_pretty (to_json_distinct h.clear), to_json_settled h]
  simp only [decode_to_json hi h.positive]

theorem parse_text {s : Snapshot} (h : s.Proper) : parse s.text = .ok s.settled := by
  rw [parse_readable h.readable, settled_unreserved h.unreserved]

theorem text_settled {s : Snapshot} (h : s.Proper) : s.settled.text = s.text := by
  rw [text, ← to_json_settled h.readable, pretty, pretty_settled]
  rfl

/-- Where every number is finite and no name is reserved, nothing is lost. -/
theorem settled_self {s : Snapshot} (h : s.Readable)
    (hu : ∀ ms ∈ s.metadata, ∀ m ∈ ms, m.1 ≠ "__proto__") (hf : s.toJson.Finite) :
    s.settled = s := by
  have hj : s.settled.toJson = s.toJson := by
    rw [← to_json_settled h, settled_finite _ hf]
  have hi : s.settled.version.isInteger = true := h.integer
  have hs := decode_to_json hi h.positive
  rw [hj, decode_to_json h.integer h.positive, settled_unreserved hu, unreserved_self hu] at hs
  exact (Checked.accepted.inj hs).symm

end Snapshot

end SchemaHistory
