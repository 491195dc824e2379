import SchemaHistory.Proofs.FiniteDocuments
import SchemaHistory.Proofs.Latest

namespace SchemaHistory

open Json

namespace Store

open SchemaHistory.Action

variable {s s' : Store}

/-- What is written for a version is its file, and the latest file unless a higher version is
there. -/
theorem put_files {key : String} {version : Binary64} {content : Json}
    (h : (put key version content).Gives s s' ()) :
    s'.path = s.path ∧
    s'.at? (s.path ++ [Key.directoryName key] ++ [versionFile version])
      = some (.file content.pretty) ∧
    ∀ top, (s.entries (s.path ++ [Key.directoryName key])).map highest = .ok top → top ≤ version →
      s'.at? (s.path ++ [Key.directoryName key] ++ [latestFile]) = some (.file content.pretty) := by
  unfold put at h
  obtain ⟨_, directory, hd, h⟩ := given_bind h
  obtain ⟨rfl, hof⟩ := given_read hd
  obtain rfl := Except.ok.inj ((directory_of_key s key).symm.trans hof)
  obtain ⟨_, top, ht, h⟩ := given_bind h
  obtain ⟨rfl, htop⟩ := given_read ht
  obtain ⟨t, _, hw, h⟩ := given_bind h
  obtain ⟨hp, hat⟩ := write_file_at (given_write hw)
  have hversion := (hat (versionFile version)).trans (if_pos rfl)
  by_cases hle : top ≤ version
  · rw [if_pos hle] at h
    obtain ⟨u, _, hw', h⟩ := given_bind h
    obtain rfl : u = s' := h.1
    have hw' := given_write hw'
    rw [← hp] at hw'
    obtain ⟨hp', hat'⟩ := write_file_at hw'
    rw [hp] at hat'
    -- The files have different names, so the first one stays when the second is written.
    refine ⟨hp'.trans hp, ?_, fun _ _ _ => (hat' latestFile).trans (if_pos rfl)⟩
    rw [hat', if_neg (latest_not_version version), hversion]
  · rw [if_neg hle] at h
    obtain rfl : t = s' := h.1
    refine ⟨hp, hversion, fun top' htop' hle' => absurd ?_ hle⟩
    exact Except.ok.inj (htop'.symm.trans htop) ▸ hle'

/-- A snapshot comes back as `y`: from its text, from the file of its version once it is saved,
whatever else the store holds, and as the latest one if no higher version was there. -/
structure ComesBack (x y : Snapshot) : Prop where
  parsed : Snapshot.parse x.text = .ok y
  version : ∀ s s', (save x).Gives s s' () → (loadVersion x.key x.version).Gives s' s' (some y)
  latest : ∀ s s' top, (save x).Gives s s' () →
    (s.entries (s.path ++ [Key.directoryName x.key])).map highest = .ok top → top ≤ x.version →
    (load x.key).Gives s' s' (some y)

theorem comes_back {x y : Snapshot} (hp : Snapshot.parse x.text = .ok y) : ComesBack x y where
  parsed := hp
  version s s' h := by
    obtain ⟨hpath, hversion, _⟩ := put_files h
    apply gives_load_version
    rw [load_version_answer, hpath]
    exact snapshot_of_text hversion hp
  latest s s' top h ht hle := by
    obtain ⟨hpath, _, hlatest⟩ := put_files h
    apply gives_load
    rw [load_answer, hpath]
    exact snapshot_of_text (hlatest top ht hle) hp

end Store

namespace Snapshot

/-- A snapshot with finite numbers alone is left as it is in its text. -/
theorem settled_kept {x : Snapshot} (hs : x.schema.settled = x.schema)
    (hm : ∀ ms ∈ x.metadata, FiniteMembers ms) : x.settled = x := by
  obtain ⟨key, schema, timestamp, version, metadata⟩ := x
  have hmeta : metadata.map settledMembers = metadata := by
    cases metadata with
    | none => rfl
    | some ms => rw [Option.map_some, settled_members_finite ms (hm ms rfl)]
  change schema.settled = schema at hs
  rw [settled, hs, hmeta]

end Snapshot

namespace Introspection

/-- A schema that a document is validated to is validated to itself, from each document that holds
it and from each text of one. A snapshot of it comes back from where it is kept, and builds the
model, or fails to, as the schema does. In a text a number that is not finite is null; apart from
such numbers, which only a text can bring in, all that comes back is equal to what was there. -/
theorem parse_fixed {d : Json} (hd : d.Distinct) {s : Schema} (h : parse d = .ok s) :
    (∀ v ∈ s.documents, parse v = .ok s ∧
      (∀ text, parse? text = some v → parse (.string text) = .ok s) ∧
      ∀ text, text = v.compact ∨ text = v.pretty → parse (.string text) = .ok s.settled) ∧
    (∀ x : Snapshot, x.schema = s → x.version.isInteger = true → 0 < x.version →
      (∀ ms ∈ x.metadata, Json.Clear ms ∧ ∀ m ∈ ms, m.1 ≠ "__proto__") →
      Store.ComesBack x x.settled ∧ Model.ofSchema x.settled.schema = Model.ofSchema s) ∧
    ((∀ v ∈ standsFor? d, v.Finite) → s.settled = s ∧
      ∀ x : Snapshot, x.schema = s → (∀ ms ∈ x.metadata, FiniteMembers ms) → x.settled = x) := by
  have hclear := parse_clear hd h
  refine ⟨fun v hv => ⟨parse_document hv, fun text => parse_document_text hv, fun text =>
    parse_printed hclear hv⟩, ?_, fun hf => ?_⟩
  · rintro x rfl hi h0 hm
    have hx : x.Readable := ⟨hi, h0, hclear, fun ms hms => (hm ms hms).1⟩
    have hp : Snapshot.parse x.text = .ok x.settled := by
      rw [Snapshot.parse_readable hx, Snapshot.settled_unreserved fun ms hms => (hm ms hms).2]
    exact ⟨Store.comes_back hp, Model.of_schema_settled x.schema⟩
  · have hs := parse_kept hf h
    refine ⟨hs, ?_⟩
    rintro x rfl hm
    exact Snapshot.settled_kept hs hm

/-- A schema with a list, and with a member in its reference that nothing reads. -/
def listSchema : Schema :=
  { sizeSchema "Int" with
    types := [{ TypeEntry.object "Query" [] with
      fields := .filled [{ Field.ofType "sizes" (.last "SCALAR" (some "Int")) with
        type := ⟨.object [("kind", .string "LIST"), ("note", .array [.null]),
          ("ofType", .object [("kind", .string "SCALAR"), ("name", .string "Int")])],
          .link "LIST" none (.last "SCALAR" (some "Int")), rfl⟩ }] }] }

/-- A response that holds it, with members that are dropped. -/
def listDocument : Json :=
  .object [("data", .object [("__schema", .object [
    ("queryType", .object [("name", .string "Query"), ("kind", .string "OBJECT")]),
    ("directives", .array []),
    ("types", .array [.object [("kind", .string "OBJECT"), ("name", .string "Query"),
      ("fields", .array [.object [("name", .string "sizes"), ("cost", .bool true),
        ("type", .object [("kind", .string "LIST"), ("note", .array [.null]),
          ("ofType", .object [("kind", .string "SCALAR"), ("name", .string "Int")])])]])]])])]),
    ("extensions", .null)]

/-- The schema of a response comes back from its text, and a snapshot of it from the file that is
saved, with all that its references hold. -/
theorem parse_fixed_list : ∃ s', let x := { Store.shop (.ofNat 1) with schema := listSchema }
    listDocument.Distinct ∧ parse listDocument = .ok listSchema ∧
    parse (.string (Json.object [("data", .object [("__schema", listSchema.toJson)])]).compact)
      = .ok listSchema ∧
    (Store.save x).Gives ⟨["srv"], none⟩ s' () ∧
    (Store.loadVersion "shop" (.ofNat 1)).Gives s' s' (some x) := by
  have hd : listDocument.Distinct := by
    simp [listDocument, Json.Distinct, Json.DistinctMembers, Json.DistinctItems]
  have h : parse listDocument = .ok listSchema := rfl
  have hf : ∀ v ∈ standsFor? listDocument, v.Finite := by
    rintro v ⟨⟩
    repeat' constructor
  have hv := Binary64.counted_nat (by decide) (by decide : 1 < Binary64.safe)
  generalize Binary64.ofNat 1 = v at hv ⊢
  have hx := Store.admissible_proper (Store.shop_admissible hv)
  obtain ⟨hdoc, hsnap, hleft⟩ := parse_fixed hd h
  obtain ⟨hs, hself⟩ := hleft hf
  have hclear : ({ Store.shop v with schema := listSchema } : Snapshot).Clear :=
    ⟨parse_clear hd h, hx.readable.metadata⟩
  obtain ⟨s', hsave, _⟩ := (Store.tidy_absent ["srv"]).saved hclear (.inr ⟨rfl, rfl⟩)
    Store.topped_nil
  refine ⟨s', hd, h, ?_, hsave, ?_⟩
  · have ht := (hdoc _ (List.mem_cons_of_mem _ List.mem_cons_self)).2.2 _ (.inl rfl)
    rwa [hs] at ht
  · obtain ⟨hback, _⟩ := hsnap { Store.shop v with schema := listSchema } rfl
      hx.readable.integer hx.readable.positive hx.metadata
    rw [hself _ rfl (by simp [Store.shop, FiniteMembers, Json.Finite])] at hback
    exact hback.version _ _ hsave

end Introspection

end SchemaHistory
