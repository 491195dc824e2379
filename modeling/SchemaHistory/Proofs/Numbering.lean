import SchemaHistory.CommandLine.Options
import SchemaHistory.Proofs.ReadBack
import SchemaHistory.Proofs.WholeText

namespace SchemaHistory

open Binary64

/-- The numbers that a command line accepts as versions. -/
def CommandLine.Accepted (v : Binary64) : Prop :=
  ∃ text, OptionSpec.version? text = some v

theorem CommandLine.Accepted.whole {v : Binary64} (h : Accepted v) :
    v.isInteger = true ∧ 0 < v := by
  obtain ⟨text, h⟩ := h
  unfold OptionSpec.version? at h
  dsimp only at h
  split at h
  · rename_i hv
    cases h
    exact ⟨hv.1, lt_of_lt_le numbered_one.positive hv.2⟩
  · contradiction

/-- A schema whose only field has a scalar type, as a version of a key. -/
def Snapshot.sizes (scalar : String) (v : Binary64) : Snapshot :=
  ⟨"shop", Introspection.sizeSchema scalar, "", v, some []⟩

namespace Store

open SchemaHistory.Action FileTree

/-- A directory where every file can be read, a version file holds that version, and the latest
one is one of them. -/
structure Labelled (entries : Entries) : Prop where
  readable : ∀ f tree, entries.lookup f = some tree → ∃ y, Holds entries f y
  named : ∀ w y, Holds entries (versionFile w) y → y.version = w
  latest : ∀ y, Holds entries latestFile y → Holds entries (versionFile y.version) y

theorem labelled_nil : Labelled [] where
  readable f tree hl := by cases hl
  named w y h := absurd h not_holds_nil
  latest y h := absurd h not_holds_nil

theorem Labelled.written {entries : Entries} (h : Labelled entries) (ht : Topped entries)
    {x : Snapshot} (hx : x.Readable) : Labelled (filed entries x.version x.text) where
  readable f tree hl := by
    by_cases hf : f = versionFile x.version ∨ f = latestFile ∧ highest entries ≤ x.version
    · exact ⟨_, holds_filed hf (Snapshot.parse_readable hx)⟩
    · rw [lookup_filed, if_neg hf] at hl
      obtain ⟨y, hy⟩ := h.readable f tree hl
      exact ⟨y, holds_kept hf hy⟩
  named w y hy := by
    rcases held_filed hx.clear hy with ⟨hf, _, rfl⟩ | ⟨_, hold⟩
    · rcases hf with hf | ⟨hf, _⟩
      · exact (version_file_injective hf).symm
      · exact absurd hf (latest_not_version w)
    · exact h.named w y hold
  latest y hy := by
    rcases latest_filed hx.clear hy with ⟨_, hr, rfl⟩ | ⟨hle, hold⟩
    · exact holds_filed (.inl rfl) (Snapshot.parse_readable hr)
    · refine holds_kept ?_ (h.latest y hold)
      rintro (hf | ⟨hf, _⟩)
      · -- The same number as the latest one would have made it the latest one.
        rw [← version_file_injective hf] at hle
        exact hle (ht.highest_latest hold)
      · exact latest_not_version _ hf

/-- Of some files, those that can be read are read in their order. -/
theorem read_versions_readable (directory : Path) (files : Entries) : ∃ xs,
    (∀ s, (readVersions directory files).Gives s s xs) ∧
      ∀ e ∈ files, ∀ x, snapshotIn (directory ++ [e.1]) e.2 = .ok x → x ∈ xs := by
  induction files with
  | nil => exact ⟨[], gives_pure [], by simp⟩
  | cons e files ih =>
    obtain ⟨xs, hg, hxs⟩ := ih
    cases hs : snapshotIn (directory ++ [e.1]) e.2 with
    | ok x =>
      refine ⟨x :: xs, fun s => ?_, ?_⟩
      · rw [readVersions, hs]
        exact gives_bind (hg s) (gives_pure _ s)
      · refine List.forall_mem_cons.mpr ⟨fun y hy => ?_, fun f hf y hy => ?_⟩
        · rw [hs] at hy
          cases hy
          exact List.mem_cons_self
        · exact List.mem_cons_of_mem _ (hxs f hf y hy)
    | error failure =>
      refine ⟨xs, fun s => ?_, ?_⟩
      · rw [readVersions, hs]
        exact gives_bind (gives_log _ _ _ s) (hg s)
      · refine List.forall_mem_cons.mpr ⟨fun y hy => ?_, hxs⟩
        rw [hs] at hy
        contradiction

/-- A version is listed if the name of its file is that of a version. -/
theorem versions_listed {s : Store} {key : String} {entries : Entries}
    (hv : s.Shows (Key.directoryName key) entries) : ∃ xs, (versions key).Gives s s xs ∧
      ∀ f y, (versionOf? f).isSome = true → Holds entries f y → y ∈ xs := by
  obtain ⟨xs, hg, hxs⟩ := read_versions_readable (s.path ++ [Key.directoryName key])
    (entries.filter fun e => (versionOf? e.1).isSome)
  refine ⟨xs.mergeSort fun a b => a.version ≤ b.version, ?_, fun f y hf hy => ?_⟩
  · unfold versions
    exact gives_bind (gives_read (directory_of_key s key))
      (gives_bind (gives_read (entries_shown hv)) (gives_bind (hg s) (gives_pure _ s)))
  · obtain ⟨text, hl, hp⟩ := hy
    refine List.mem_mergeSort.mpr (hxs (f, .file text) (List.mem_filter.mpr ⟨?_, hf⟩) y ?_)
    · exact mem_of_lookup hl
    · simp only [snapshotIn, hp]

/-- A new version of a key goes on from all that the key had: its number is above theirs, it is
listed as it is read back, and they are as they were. -/
structure Advances (s s' : Store) (x : Snapshot) : Prop where
  above : ∀ w y, (loadVersion x.key w).Gives s s (some y) → y.version < x.version
  listed : ∃ xs, (versions x.key).Gives s' s' xs ∧ x.settled.unreserved ∈ xs
  kept : ∀ w y, (loadVersion x.key w).Gives s s (some y) →
    (loadVersion x.key w).Gives s' s' (some y)

/-- There is room for one more version of a key: each one that it has is found by the name of its
file, and counting on from the latest one goes forward. -/
structure Roomy (s : Store) (key : String) : Prop where
  named : ∀ w y, (loadVersion key w).Gives s s (some y) → y.version < .ofNat positional
  forward : ∀ y, (load key).Gives s s (some y) → y.version < y.version + 1

/-- There is room as long as all versions are below 2^53. -/
theorem Throughout.roomy {s : Store} (h : s.Throughout Labelled) {key : String}
    (hs : ∀ w y, (loadVersion key w).Gives s s (some y) → y.version < .ofNat safe) :
    s.Roomy key where
  named w y hy := safe_lt_positional (hs w y hy)
  forward y hy := by
    obtain ⟨es, hv, _⟩ := h.tidy.shown (Key.directoryName key)
    have hl := load_holds hv hy.2
    obtain ⟨hi, h0⟩ := load_whole hy.2
    exact next_above hi h0 (hs _ y ((load_version_iff hv).mpr ((h.each _ es hv).latest y hl)))

section

variable {r : Registry} {s : Store} {key : String} {model : Model} {n : Binary64} {es : Entries}

/-- A version that is due is above the others where there is room. -/
theorem due_above (hv : s.Shows (Key.directoryName key) es) (ht : Topped es) (hl : Labelled es)
    (hdue : r.Due s key model n) (h : s.Roomy key) {w : Binary64} {y : Snapshot}
    (hy : Holds es (versionFile w) y) : y.version < n := by
  obtain rfl := hl.named w y hy
  have hlow := h.named _ y ((load_version_iff hv).mpr hy)
  obtain ⟨text, hlookup, hp⟩ := hy
  obtain ⟨hi, h0⟩ := Snapshot.parse_version hp
  have hname := version_of_whole hi h0 hlow
  cases hdue with
  | first hnone =>
    cases hname.symm.trans (ht.empty (load_missing hv hnone) _ (mem_of_lookup hlookup))
  | @next z previous hz _ _ =>
    have hle := ht.latest z (load_holds hv hz) _ (mem_of_lookup hlookup) _ hname
    exact lt_of_le_lt hle (h.forward z (gives_load hz))

/-- The file of a version that is due is found by its name, if counting on goes forward. -/
theorem due_positional (hdue : r.Due s key model n)
    (h : ∀ y, (load key).Gives s s (some y) → y.version < y.version + 1) :
    n < .ofNat positional := by
  cases hdue with
  | first _ => exact safe_lt_positional ((of_nat_lt (by decide) (Nat.le_refl safe)).mpr (by decide))
  | @next z previous hz _ _ =>
    obtain ⟨hi, h0⟩ := load_whole hz
    exact next_positional hi h0 (h z (gives_load hz))

/-- If a version that is due is above the others, there is room for it. -/
theorem roomy_of_above (hv : s.Shows (Key.directoryName key) es) (hl : Labelled es)
    (hdue : r.Due s key model n)
    (h : ∀ w y, (loadVersion key w).Gives s s (some y) → y.version < n) : s.Roomy key := by
  have hforward : ∀ y, (load key).Gives s s (some y) → y.version < y.version + 1 := by
    intro y hy
    have hlt := h _ y ((load_version_iff hv).mpr (hl.latest y (load_holds hv hy.2)))
    cases hdue with
    | first hnone => cases hy.2.symm.trans hnone
    | next hz _ _ =>
      cases hy.2.symm.trans hz
      exact hlt
  exact ⟨fun w y hy => lt_of_lt_le (h w y hy) (le_of_lt (due_positional hdue hforward)), hforward⟩

end

/-- A version that is due goes on from what the key has just when there is room for it. -/
theorem Throughout.advances {s s' : Store} (h : s.Throughout Labelled) {r : Registry}
    {x : Snapshot} {model : Model} (hx : x.Readable) (hdue : r.Due s x.key model x.version)
    (hs : (save x).Gives s s' ()) : s.Advances s' x ↔ s.Roomy x.key := by
  obtain ⟨es, hv, ht⟩ := h.tidy.shown (Key.directoryName x.key)
  have hl := h.each _ es hv
  obtain ⟨s'', hg, _, hc⟩ := h.tidy.saved hx.clear hv ht
  obtain rfl : s'' = s' := hg.1.symm.trans hs.1
  -- The number alone decides: a version above all others is listed and takes no other's place.
  refine ⟨fun ha => roomy_of_above hv hl hdue ha.above, fun hroom => ?_⟩
  have habove : ∀ w y, Holds es (versionFile w) y → y.version < x.version := fun w y hy =>
    due_above hv ht hl hdue hroom hy
  refine ⟨fun w y hy => habove w y ((load_version_iff hv).mp hy), ?_, fun w y hy => ?_⟩
  · obtain ⟨xs, hg, hxs⟩ := versions_listed hc.shows
    refine ⟨xs, hg, hxs (versionFile x.version) _ ?_ (holds_filed (.inl rfl) ?_)⟩
    · rw [version_of_whole hx.integer hx.positive (due_positional hdue hroom.forward)]
      rfl
    · exact Snapshot.parse_readable hx
  · have hold := (load_version_iff hv).mp hy
    refine (load_version_iff hc.shows).mpr (holds_kept ?_ hold)
    rintro (hf | ⟨hf, _⟩)
    · have hlt := habove w y hold
      rw [hl.named w y hold, version_file_injective hf] at hlt
      exact ne_of_lt hlt rfl
    · exact latest_not_version _ hf

theorem run_labelled (path : Path) {calls : List (Registry × Call)}
    (hc : ∀ c ∈ calls, c.2.Kept CommandLine.Accepted c.1) :
    Throughout Labelled (run ⟨path, none⟩ calls) := by
  refine run_throughout labelled_nil (fun _ _ => Call.Kept.clear) ?_
    (throughout_absent labelled_nil path) hc
  intro r c s x es hc hx _ ht h
  have hclear := hx.clear hc.clear
  have hwhole : x.version.isInteger = true ∧ 0 < x.version := by
    obtain ⟨m, _, ha | hd⟩ := hx.kept hc
    · exact ha.whole
    · exact hd.positive
  exact h.written ht ⟨hwhole.1, hwhole.2, hclear.schema, hclear.metadata⟩

/-- In such a store no version of a key is in the way. -/
theorem Throughout.version_found {s : Store} (h : s.Throughout Labelled) (key : String)
    (w : Binary64) : ∃ found, (loadVersion key w).Gives s s found := by
  obtain ⟨es, hv, _⟩ := h.tidy.shown (Key.directoryName key)
  cases hl : es.lookup (versionFile w) with
  | none =>
    refine ⟨none, gives_load_version ?_⟩
    rw [load_version_answer, snapshot_none_iff hv, hl]
  | some tree =>
    obtain ⟨y, hy⟩ := (h.each _ es hv).readable _ tree hl
    exact ⟨some y, (load_version_iff hv).mpr hy⟩

/-- A document that is offered without a version is written under the number that is due, if it is
written. -/
theorem Tidy.offered {s : Store} (h : s.Tidy) {r : Registry} {key : String} {document : Json}
    (hd : document.Distinct) (hm : Json.Clear r.metadata) {c : Call}
    (hc : c = .snapshot key document none ∨ c = .check key document) {k : String} {n : Binary64}
    (hn : (k, n) ∈ Log.filed (r.call c s).log) : ∃ current,
      ReadDocument.ofJson document = .ok current ∧ k = key ∧ r.Due s key current.model n ∧
        (save ⟨key, current.schema, r.now, n, some r.metadata⟩).Gives s (r.call c s).store () := by
  have hclear : c.Clear r := by
    rcases hc with rfl | rfl <;> exact ⟨hd, hm⟩
  cases Registry.call_effect h hclear with
  | still hs =>
    rw [hs.2] at hn
    contradiction
  | saved hx _ _ hg _ _ hlog =>
    rw [hlog, List.mem_singleton] at hn
    cases hn
    cases hx with
    | checked hr hdue =>
      obtain ⟨rfl, rfl⟩ : _ ∧ _ := by simpa using hc
      exact ⟨_, hr, rfl, hdue, hg⟩
    | due hr hdue =>
      obtain ⟨rfl, rfl⟩ : _ ∧ _ := by simpa using hc
      exact ⟨_, hr, rfl, hdue, hg⟩
    | forced hr => simp at hc
    | saved x => simp at hc
  | deleted hk _ =>
    rw [hk] at hc
    simp at hc

theorem sizes_accepted {v : Binary64} (h : CommandLine.Accepted v) :
    ∀ c ∈ [(Registry.standard "",
      Call.snapshot "shop" (Introspection.sizeDocument "Int") (some v))],
      c.2.Kept CommandLine.Accepted c.1 := by
  refine List.forall_mem_singleton.mpr ⟨⟨Introspection.size_document_distinct "Int",
    Registry.standard_clear ""⟩, fun w hw => ?_⟩
  cases hw
  exact h

/-- Two documents with different types, the first one kept under a given number. -/
theorem sizes_offered {v : Binary64} (hi : v.isInteger = true) (h0 : 0 < v) : ∃ s s',
    run ⟨["srv"], none⟩ [(.standard "",
      .snapshot "shop" (Introspection.sizeDocument "Int") (some v))] = s ∧
    (∀ w y, (loadVersion "shop" w).Gives s s (some y) → y.version = v) ∧
    (loadVersion "shop" v).Gives s s (some (.sizes "Int" v)) ∧
    ((Registry.standard "").snapshot "shop" (Introspection.sizeDocument "Float") none).Gives s s'
      (.sizes "Float" (v + 1)) ∧
    (loadVersion "shop" (v + 1)).Gives s' s' (some (.sizes "Float" (v + 1))) ∧
    Log.filed ((Registry.standard "").call
      (.snapshot "shop" (Introspection.sizeDocument "Float") none) s).log = [("shop", v + 1)] := by
  have hint := ReadDocument.of_size_document
    (rfl : Model.ofSchema (Introspection.sizeSchema "Int") = .ok _)
  have hfloat := ReadDocument.of_size_document
    (rfl : Model.ofSchema (Introspection.sizeSchema "Float") = .ok _)
  have hx : (Snapshot.sizes "Int" v).Readable := Snapshot.readable_of_document hint
    (Introspection.size_document_distinct "Int") (Registry.standard_clear "") hi h0
  have hnext : (Snapshot.sizes "Float" (v + 1)).Readable := Snapshot.readable_of_document hfloat
    (Introspection.size_document_distinct "Float") (Registry.standard_clear "")
    (next_whole hi h0).1 (next_whole hi h0).2
  have hv : Shows ⟨["srv"], none⟩ (Key.directoryName "shop") [] := .inr ⟨rfl, rfl⟩
  have hl : (load "shop").Gives ⟨["srv"], none⟩ ⟨["srv"], none⟩ none :=
    ⟨rfl, (load_answer "shop" _).trans ((snapshot_none_iff hv).mpr rfl)⟩
  have hle : highest [] ≤ v := highest_le.mpr ⟨le_of_positive h0, by simp⟩
  obtain ⟨s, hs, htidy, hc⟩ := (tidy_absent ["srv"]).saved hx.clear hv topped_nil
  have hheld : ∀ f, f = versionFile v ∨ f = latestFile →
      Holds (filed [] v (Snapshot.sizes "Int" v).text) f (.sizes "Int" v) := fun f hf =>
    holds_filed (hf.imp_right fun hf => ⟨hf, hle⟩) (Snapshot.parse_readable hx)
  have hlatest := load_held hc.shows (hheld _ (.inr rfl))
  have hdue := Registry.Due.next (r := .standard "") hlatest.2 rfl Model.size_changes
  obtain ⟨s', hg, _, hc'⟩ := htidy.saved hnext.clear hc.shows (topped_nil.written hx.clear)
  refine ⟨s, s', run_snapshot (Registry.snapshot_forced hint hl hs), fun w y hy => ?_,
    (load_version_iff hc.shows).mpr (hheld _ (.inl rfl)), Registry.snapshot_due hfloat hdue hg,
    (load_version_iff hc'.shows).mpr (holds_filed (.inl rfl) (Snapshot.parse_readable hnext)), ?_⟩
  · rcases held_filed hx.clear ((load_version_iff hc.shows).mp hy) with ⟨_, _, rfl⟩ | ⟨_, hold⟩
    · rfl
    · exact absurd hold not_holds_nil
  · exact (Registry.call_due _ _ hfloat hdue).2.trans (filed_put hg.2)

/-- After any run with numbers that a command line accepts, every version of a key is found, and a
document that is written without a number goes on from all of them just when there is room for it.
There is room as long as they are below 2^53. -/
theorem unforced_advances (path : Path) {calls : List (Registry × Call)}
    (hcalls : ∀ c ∈ calls, c.2.Kept CommandLine.Accepted c.1) {s : Store}
    (hs : run ⟨path, none⟩ calls = s) {r : Registry} {key : String} {document : Json}
    (hd : document.Distinct) (hm : Json.Clear r.metadata) {c : Call}
    (hc : c = .snapshot key document none ∨ c = .check key document) {k : String} {n : Binary64}
    (hn : (k, n) ∈ Log.filed (r.call c s).log) :
    k = key ∧ (∀ w, ∃ found, (loadVersion key w).Gives s s found) ∧ ∃ current x,
      ReadDocument.ofJson document = .ok current ∧
      x = Snapshot.mk key current.schema r.now n (some r.metadata) ∧
      (s.Advances (r.call c s).store x ↔ s.Roomy key) ∧
      ((∀ w y, (loadVersion key w).Gives s s (some y) → y.version < .ofNat safe) →
        s.Advances (r.call c s).store x) := by
  have h := hs ▸ run_labelled path hcalls
  obtain ⟨current, hr, hk, hdue, hg⟩ := h.tidy.offered hd hm hc hn
  have hiff := h.advances (hdue.readable hr hd hm) hdue hg
  exact ⟨hk, h.version_found key, current, _, hr, rfl, hiff, fun hlow => hiff.mpr (h.roomy hlow)⟩

/-- After version five, a new version is version six and goes on from it. -/
theorem unforced_advances_sizes : ∃ s s',
    run ⟨["srv"], none⟩ [(.standard "",
      .snapshot "shop" (Introspection.sizeDocument "Int") (some (.ofNat 5)))] = s ∧
    ((Registry.standard "").snapshot "shop" (Introspection.sizeDocument "Float") none).Gives s s'
      (.sizes "Float" (.ofNat 6)) ∧
    s.Advances s' (.sizes "Float" (.ofNat 6)) := by
  have hfive : CommandLine.OptionSpec.version? "5" = some (.ofNat 5) := by decide +kernel
  obtain ⟨hi, h0⟩ := CommandLine.Accepted.whole ⟨"5", hfive⟩
  obtain ⟨s, s', hrun, hall, _, hgiven, _, hlog⟩ := sizes_offered hi h0
  have hlow : Binary64.ofNat 5 < .ofNat safe := (of_nat_lt (by decide) (by decide)).mpr (by decide)
  have hsix : Binary64.ofNat 5 + 1 = .ofNat 6 := of_nat_succ (by decide)
  rw [hsix] at hgiven hlog
  have hkept := sizes_accepted ⟨_, hfive⟩
  obtain ⟨_, _, current, x, hr, rfl, _, hadvances⟩ := unforced_advances ["srv"] hkept hrun
    (Introspection.size_document_distinct "Float") (Registry.standard_clear "") (.inl rfl)
    (hlog ▸ List.mem_singleton_self _)
  have hfloat := ReadDocument.of_size_document
    (rfl : Model.ofSchema (Introspection.sizeSchema "Float") = .ok _)
  cases hfloat.symm.trans hr
  refine ⟨s, s', hrun, hgiven, ?_⟩
  have hstore : ((Registry.standard "").call
      (.snapshot "shop" (Introspection.sizeDocument "Float") none) s).store = s' :=
    (gives_bind hgiven (gives_pure () s')).1
  rw [← hstore]
  refine hadvances fun w y hy => ?_
  rw [hall w y hy]
  exact hlow

/-- After version 2^53, which a command line accepts, a new version gets that number again and takes
the place of the old one. -/
theorem last_version_replaced : ∃ v s s',
    CommandLine.OptionSpec.version? "9007199254740992" = some v ∧
    run ⟨["srv"], none⟩ [(.standard "",
      .snapshot "shop" (Introspection.sizeDocument "Int") (some v))] = s ∧
    (loadVersion "shop" v).Gives s s (some (.sizes "Int" v)) ∧
    ((Registry.standard "").snapshot "shop" (Introspection.sizeDocument "Float") none).Gives s s'
      (.sizes "Float" v) ∧
    (loadVersion "shop" v).Gives s' s' (some (.sizes "Float" v)) ∧
    ¬s.Advances s' (.sizes "Float" v) := by
  have hsafe : CommandLine.OptionSpec.version? "9007199254740992" = some (.ofNat safe) := by
    decide +kernel
  obtain ⟨hi, h0⟩ := CommandLine.Accepted.whole ⟨_, hsafe⟩
  obtain ⟨s, s', hrun, _, hold, hgiven, hnew, _⟩ := sizes_offered hi h0
  rw [safe_succ] at hgiven hnew
  exact ⟨_, s, s', hsafe, hrun, hold, hgiven, hnew, fun h => ne_of_lt (h.above _ _ hold) rfl⟩

end Store

end SchemaHistory
