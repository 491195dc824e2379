import SchemaHistory.Proofs.Settling
import SchemaHistory.Proofs.Throughout

namespace SchemaHistory

/-- The calls that write only what a registry makes of documents in which no object names a member
twice, and under allowed versions where they are given. -/
def Call.Kept (allowed : Binary64 → Prop) (r : Registry) : Call → Prop
  | .check _ document => document.Distinct ∧ Json.Clear r.metadata
  | .snapshot _ document version =>
    (document.Distinct ∧ Json.Clear r.metadata) ∧ ∀ v ∈ version, allowed v
  | .store (.save _) => False
  | _ => True

theorem Call.Kept.clear {allowed : Binary64 → Prop} {r : Registry} {c : Call}
    (h : c.Kept allowed r) : c.Clear r := by
  cases c with
  | check key document => exact h
  | snapshot key document version => exact h.1
  | store request => cases request <;> trivial
  | _ => trivial

/-- A snapshot that such a call writes has a schema that is built, and a number that is due or
allowed. -/
theorem Registry.Files.kept {allowed : Binary64 → Prop} {r : Registry} {s : Store} {c : Call}
    {x : Snapshot} (hc : c.Kept allowed r) (h : r.Files s c x) : ∃ m,
      Model.ofSchema x.schema = .ok m ∧ (allowed x.version ∨ r.Due s x.key m x.version) := by
  cases h with
  | checked hr hd => exact ⟨_, (ReadDocument.of_json_ok hr).2, .inr hd⟩
  | due hr hd => exact ⟨_, (ReadDocument.of_json_ok hr).2, .inr hd⟩
  | forced hr => exact ⟨_, (ReadDocument.of_json_ok hr).2, .inl (hc.2 _ rfl)⟩
  | saved x => exact hc.elim

/-- A version that is given is kept where the latest one can be read. -/
theorem Registry.forced_ok {r : Registry} {s : Store} {key : String} {document : Json}
    {v : Binary64} {x : Snapshot} (h : (r.snapshot key document (some v) s).answer = .ok x) :
    ∃ current found, ReadDocument.ofJson document = .ok current ∧
      (Store.load key s).answer = .ok found ∧
      x = ⟨key, current.schema, r.now, v, some r.metadata⟩ ∧
      (r.snapshot key document (some v) s).store = (Store.save x s).store := by
  unfold snapshot at h ⊢
  obtain ⟨current, hr, h, hs⟩ := Action.still_result (Action.still_lift _ s) h
  rw [hs]
  obtain ⟨found, hl, h, hs⟩ := Action.still_result (Store.still_load key s) h
  rw [hs]
  refine ⟨current, found, hr, hl, ?_⟩
  cases found with
  | none => exact ⟨keep_ok h, keep_ok h ▸ (r.keep_saves s _ _ _).1⟩
  | some existing => exact ⟨keep_ok h, keep_ok h ▸ (r.keep_saves s _ _ _).1⟩

theorem Registry.snapshot_forced {r : Registry} {s s' : Store} {key : String} {document : Json}
    {v : Binary64} {current : ReadDocument} {found : Option Snapshot}
    (hr : ReadDocument.ofJson document = .ok current) (hl : (Store.load key).Gives s s found)
    (hs : (Store.save ⟨key, current.schema, r.now, v, some r.metadata⟩).Gives s s' ()) :
    (r.snapshot key document (some v)).Gives s s'
      ⟨key, current.schema, r.now, v, some r.metadata⟩ := by
  unfold snapshot
  refine Action.gives_bind ⟨rfl, hr⟩ (Action.gives_bind hl ?_)
  cases found <;> exact keep_given hs

namespace Store

open SchemaHistory.Action Binary64 FileTree

/-- The latest version of a directory is built into a model if it can be read. -/
def LatestBuilt (entries : Entries) : Prop :=
  ∀ y, Holds entries latestFile y → ∃ m, Model.ofSchema y.schema = .ok m

theorem LatestBuilt.written {entries : Entries} (h : LatestBuilt entries) {x : Snapshot}
    (hx : x.Clear) {m : Model} (hm : Model.ofSchema x.schema = .ok m) :
    LatestBuilt (filed entries x.version x.text) := by
  intro y hy
  rcases latest_filed hx hy with ⟨_, _, rfl⟩ | ⟨_, hold⟩
  · exact ⟨m, (Model.of_schema_settled x.schema).trans hm⟩
  · exact h y hold

theorem run_built (path : Path) {calls : List (Registry × Call)}
    (hc : ∀ c ∈ calls, c.2.Kept (fun _ => True) c.1) :
    Throughout LatestBuilt (run ⟨path, none⟩ calls) := by
  have h0 : LatestBuilt [] := fun y hy => absurd hy not_holds_nil
  refine run_throughout h0 (fun _ _ => Call.Kept.clear) ?_ (throughout_absent h0 path) hc
  intro r c s x es hc hx _ _ h
  obtain ⟨m, hm, _⟩ := hx.kept hc
  exact h.written (hx.clear hc.clear) hm

/-- A snapshot is found again as its version, less what is lost in its text, and nothing that was
written for its key is in the way of checks. -/
structure ReadsBack (s : Store) (x : Snapshot) : Prop where
  version : (loadVersion x.key x.version).Gives s s (some x.settled.unreserved)
  latest : ∃ y, (load x.key).Gives s s (some y)
  checked : ∀ (r : Registry) document current, ReadDocument.ofJson document = .ok current →
    ∃ s' report, (r.check x.key document).Gives s s' report

theorem Tidy.puts {s : Store} (h : s.Tidy) (key : String) (version : Binary64) (content : Json) :
    ∃ s', (put key version content).Gives s s' () := by
  obtain ⟨es, hv, ht⟩ := h.shown (Key.directoryName key)
  obtain ⟨s', hg, _⟩ := put_given h.plain h.ordered hv ht.flat version content
  exact ⟨s', hg⟩

/-- A file with a text that says nothing is reported as corrupt. -/
theorem snapshot_corrupt {s : Store} {name f text : String} {entries : Entries}
    (hv : s.Shows name entries) (hl : entries.lookup f = some (.file text))
    (hp : ∀ x, Snapshot.parse text ≠ .ok x) : ∃ path reason,
      s.snapshotAt? (s.path ++ [name] ++ [f]) = .error (.corruptSnapshot path reason) := by
  rw [snapshot_shown hv, hl]
  cases ht : Snapshot.parse text with
  | ok x => exact absurd ht (hp x)
  | error reason => exact ⟨_, reason, by simp only [snapshotIn, ht]; rfl⟩

/-- A snapshot that was written is found again just when its version is a positive whole number,
whatever was written before. -/
theorem Throughout.reads_back {s : Store} (h : s.Throughout LatestBuilt) {x : Snapshot}
    (hx : x.Clear) {m : Model} (hm : Model.ofSchema x.schema = .ok m) {found : Option Snapshot}
    (hl : (load x.key s).answer = .ok found) :
    (save x s).store.ReadsBack x ↔ x.version.isInteger = true ∧ 0 < x.version := by
  obtain ⟨es, hv, ht⟩ := h.tidy.shown (Key.directoryName x.key)
  obtain ⟨s', hg, htidy, hc⟩ := h.tidy.saved hx hv ht
  rw [hg.1]
  constructor
  · intro hback
    rcases held_filed hx ((load_version_iff hc.shows).mp hback.version) with ⟨_, hr, _⟩ | ⟨hn, _⟩
    · exact ⟨hr.integer, hr.positive⟩
    · exact absurd (.inl rfl) hn
  · rintro ⟨hi, h0⟩
    have hp := Snapshot.parse_readable ⟨hi, h0, hx.schema, hx.metadata⟩
    have hlatest : ∃ y, Holds (filed es x.version x.text) latestFile y := by
      by_cases hle : highest es ≤ x.version
      · exact ⟨_, holds_filed (.inr ⟨rfl, hle⟩) hp⟩
      · cases found with
        | none =>
          rw [highest_empty (ht.empty (load_missing hv hl))] at hle
          exact absurd (le_of_positive h0) hle
        | some y =>
          refine ⟨y, holds_kept ?_ (load_holds hv hl)⟩
          rintro (he | ⟨_, he⟩)
          · exact latest_not_version _ he.symm
          · exact hle he
    obtain ⟨y, hy⟩ := hlatest
    obtain ⟨model, hb⟩ := (h.each _ es hv).written hx hm y hy
    refine ⟨(load_version_iff hc.shows).mpr (holds_filed (.inl rfl) hp), ⟨y, load_held hc.shows hy⟩,
      fun r document current hr => ?_⟩
    exact Registry.check_given hr (load_held hc.shows hy) hb (.inr fun z _ =>
      htidy.puts z.key z.version z.toJson)

/-- After any run, what is kept under a given number is found again just when the number is a
positive whole one: as it was kept, unless a number has no text or a name is reserved. Under any
other number it is kept and then reported as corrupt. -/
theorem forced_reads_back (path : Path) {calls : List (Registry × Call)}
    (hc : ∀ c ∈ calls, c.2.Kept (fun _ => True) c.1) {r : Registry} {key : String}
    {document : Json} (hd : document.Distinct) (hm : Json.Clear r.metadata) {v : Binary64}
    {s' : Store} {x : Snapshot}
    (h : (r.snapshot key document (some v)).Gives (run ⟨path, none⟩ calls) s' x) :
    x.key = key ∧ x.version = v ∧ (s'.ReadsBack x ↔ v.isInteger = true ∧ 0 < v) ∧
      (s'.ReadsBack x → x.toJson.Finite → (∀ m ∈ r.metadata, m.1 ≠ "__proto__") →
        (loadVersion key v).Gives s' s' (some x)) ∧
      (¬s'.ReadsBack x → ∃ file reason,
        (loadVersion key v s').answer = .error (.corruptSnapshot file reason)) := by
  obtain ⟨rfl, hx⟩ := h
  have hbuilt := run_built path hc
  obtain ⟨current, found, hr, hl, rfl, hs⟩ := Registry.forced_ok hx
  have hclear := Registry.clear_of_document (r := r) hr hd hm key v
  have hiff := hbuilt.reads_back hclear (ReadDocument.of_json_ok hr).2 hl
  rw [hs]
  refine ⟨rfl, rfl, hiff, ?_, ?_⟩
  · intro hback hf hu
    obtain ⟨hi, h0⟩ := hiff.mp hback
    have hu' : ∀ ms ∈ some r.metadata, ∀ m ∈ ms, m.1 ≠ "__proto__" := by
      rintro ms ⟨⟩
      exact hu
    have hself := Snapshot.settled_self ⟨hi, h0, hclear.schema, hclear.metadata⟩ hu' hf
    have hv := hback.version
    rwa [Snapshot.settled_unreserved hu', hself] at hv
  · intro hback
    obtain ⟨es, hv, ht⟩ := hbuilt.tidy.shown (Key.directoryName key)
    obtain ⟨s', hg, _, hchanged⟩ := hbuilt.tidy.saved hclear hv ht
    rw [hg.1, load_version_answer]
    refine snapshot_corrupt hchanged.shows ((lookup_filed es v _ _).trans (if_pos (.inl rfl)))
      fun y hp => ?_
    have hr := Snapshot.readable_of_parsed hclear hp
    exact hback (hiff.mpr ⟨hr.integer, hr.positive⟩)

theorem sizes_forced (v : Binary64) : ∃ s s' x,
    run ⟨["srv"], none⟩ [(.standard "",
      .snapshot "shop" (Introspection.sizeDocument "Int") none)] = s ∧
    ((Registry.standard "").snapshot "shop" (Introspection.sizeDocument "Float") (some v)).Gives
      s s' x := by
  have hint := ReadDocument.of_size_document
    (rfl : Model.ofSchema (Introspection.sizeSchema "Int") = .ok _)
  have hfloat := ReadDocument.of_size_document
    (rfl : Model.ofSchema (Introspection.sizeSchema "Float") = .ok _)
  obtain ⟨s, y, hfirst, htidy, hl, _, _⟩ := Registry.first_kept ["srv"] hint
    (Introspection.size_document_distinct "Int") (Registry.standard_clear "") "shop"
  obtain ⟨s', hs⟩ := htidy.puts "shop" v (Snapshot.mk "shop" (Introspection.sizeSchema "Float")
    "" v (some (Registry.standard "").metadata)).toJson
  exact ⟨s, s', _, run_snapshot hfirst, Registry.snapshot_forced hfloat hl hs⟩

/-- A version that is given after the first one is found again. -/
theorem forced_reads_back_sizes : ∃ s s' x,
    run ⟨["srv"], none⟩ [(.standard "",
      .snapshot "shop" (Introspection.sizeDocument "Int") none)] = s ∧
    ((Registry.standard "").snapshot "shop" (Introspection.sizeDocument "Float")
      (some (.ofNat 5))).Gives s s' x ∧ s'.ReadsBack x := by
  obtain ⟨s, s', x, hrun, hforced⟩ := sizes_forced (.ofNat 5)
  have hkept : ∀ c ∈ [(Registry.standard "", Call.snapshot "shop"
      (Introspection.sizeDocument "Int") none)], c.2.Kept (fun _ => True) c.1 := by
    simpa [Call.Kept] using
      ⟨Introspection.size_document_distinct "Int", Registry.standard_clear ""⟩
  refine ⟨s, s', x, hrun, hforced, ?_⟩
  rw [← hrun] at hforced
  obtain ⟨_, _, hiff, _⟩ := forced_reads_back ["srv"] hkept
    (Introspection.size_document_distinct "Float") (Registry.standard_clear "") hforced
  exact hiff.mpr ⟨of_nat_integer (by decide), (of_nat_lt (by decide) (by decide)).mpr (by decide)⟩

/-- Under the number zero a document is kept, and then neither that version nor the latest one can
be read, and no document can be checked. -/
theorem zero_not_read_back : ∃ s x,
    ((Registry.standard "").snapshot "shop" (Introspection.sizeDocument "Int") (some 0)).Gives
      ⟨["srv"], none⟩ s x ∧
    (∃ file reason, (loadVersion "shop" 0 s).answer = .error (.corruptSnapshot file reason)) ∧
    (∃ file reason, (load "shop" s).answer = .error (.corruptSnapshot file reason)) ∧
    ∀ document current, ReadDocument.ofJson document = .ok current → ∃ file reason,
      ((Registry.standard "").check "shop" document s).answer
        = .error (.corruptSnapshot file reason) := by
  have hint := ReadDocument.of_size_document
    (rfl : Model.ofSchema (Introspection.sizeSchema "Int") = .ok _)
  have hclear := Registry.clear_of_document (r := .standard "") hint
    (Introspection.size_document_distinct "Int") (Registry.standard_clear "") "shop" 0
  have hv : Shows ⟨["srv"], none⟩ (Key.directoryName "shop") [] := .inr ⟨rfl, rfl⟩
  have hl : (load "shop").Gives ⟨["srv"], none⟩ ⟨["srv"], none⟩ none :=
    ⟨rfl, (load_answer "shop" _).trans ((snapshot_none_iff hv).mpr rfl)⟩
  obtain ⟨s, hs, _, hc⟩ := (tidy_absent ["srv"]).saved hclear hv topped_nil
  have hunread : ∀ y, Snapshot.parse (Snapshot.mk "shop" (Introspection.sizeSchema "Int") "" 0
      (some (Registry.standard "").metadata)).text ≠ .ok y := by
    intro y hp
    have hp0 := (Snapshot.readable_of_parsed hclear hp).positive
    exact (whole_lt_iff whole_zero whole_zero).mp hp0 (whole_le_refl whole_zero)
  have hle : highest [] ≤ 0 := by
    rw [highest_empty (by simp)]
    exact whole_le_refl whole_zero
  have hload : ∃ file reason, (load "shop" s).answer = .error (.corruptSnapshot file reason) := by
    rw [load_answer]
    refine snapshot_corrupt hc.shows ?_ hunread
    exact (lookup_filed [] 0 _ _).trans (if_pos (.inr ⟨rfl, hle⟩))
  have hversion : ∃ file reason,
      (loadVersion "shop" 0 s).answer = .error (.corruptSnapshot file reason) := by
    rw [load_version_answer]
    exact snapshot_corrupt hc.shows ((lookup_filed [] 0 _ _).trans (if_pos (.inl rfl))) hunread
  refine ⟨s, _, Registry.snapshot_forced hint hl hs, hversion, hload, fun document current hr => ?_⟩
  obtain ⟨file, reason, hload⟩ := hload
  refine ⟨file, reason, ?_⟩
  have hread : (Action.lift (ReadDocument.ofJson document) s).answer = .ok current := hr
  have hstore : (Action.lift (ReadDocument.ofJson document) s).store = s := rfl
  unfold Registry.check
  rw [after_ok hread, hstore, after_error hload]

end Store

end SchemaHistory
