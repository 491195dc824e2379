import SchemaHistory.Proofs.NumberOrder
import SchemaHistory.Proofs.Rereading

namespace SchemaHistory

namespace Store

open SchemaHistory.Action Binary64 FileTree

/-- A directory of files where no version is above the latest one, if that can be read. Without a
latest version there is no version at all. -/
structure Topped (entries : Entries) : Prop where
  flat : ∀ f inner, entries.lookup f ≠ some (.directory inner)
  empty : entries.lookup latestFile = none → ∀ e ∈ entries, versionOf? e.1 = none
  latest : ∀ x, Holds entries latestFile x → ∀ e ∈ entries, ∀ v, versionOf? e.1 = some v →
    v ≤ x.version

theorem topped_nil : Topped [] where
  flat f inner hl := by cases hl
  empty _ e he := by cases he
  latest x _ e he := by cases he

theorem not_holds_nil {f : String} {x : Snapshot} : ¬Holds [] f x := by
  rintro ⟨_, hl, _⟩
  cases hl

theorem Topped.highest_latest {entries : Entries} (h : Topped entries) {x : Snapshot}
    (hx : Holds entries latestFile x) : highest entries ≤ x.version := by
  obtain ⟨text, hl, hp⟩ := hx
  have h0 := le_of_positive (Snapshot.parse_version hp).2
  exact highest_le.mpr ⟨h0, h.latest x ⟨text, hl, hp⟩⟩

section

variable {entries : Entries} {version : Binary64} {text : String}

theorem filed_mem {e : String × FileTree} (h : e ∈ filed entries version text) :
    e ∈ entries ∨ ∀ v, versionOf? e.1 = some v → v = version := by
  have hwritten : ∀ e ∈ FileTree.put (versionFile version) (.file text) entries,
      e ∈ entries ∨ ∀ v, versionOf? e.1 = some v → v = version := by
    intro e he
    rcases put_mem he with rfl | he
    · exact .inr fun v hv => version_written hv
    · exact .inl he
  unfold filed at h
  dsimp only at h
  split at h
  · rcases put_mem h with rfl | h
    · exact .inr fun v hv => nomatch version_of_latest.symm.trans hv
    · exact hwritten e h
  · exact hwritten e h

theorem highest_empty (h : ∀ e ∈ entries, versionOf? e.1 = none) : highest entries = 0 := by
  have hn : entries.filterMap (fun e => versionOf? e.1) = [] := List.filterMap_eq_nil_iff.mpr h
  rw [highest, hn, List.foldl_nil]

/-- What a file is read as after a version was written: what is left of that version, if it was
written there and can be read, or else what was read there before. -/
theorem held_filed {x y : Snapshot} (hx : x.Clear) {f : String}
    (h : Holds (filed entries x.version x.text) f y) :
    (f = versionFile x.version ∨ f = latestFile ∧ highest entries ≤ x.version) ∧ x.Readable ∧
        y = x.settled.unreserved ∨
      ¬(f = versionFile x.version ∨ f = latestFile ∧ highest entries ≤ x.version) ∧
        Holds entries f y := by
  obtain ⟨t, ht, hp⟩ := h
  rw [lookup_filed] at ht
  split at ht
  · rename_i hf
    cases ht
    have hr := Snapshot.readable_of_parsed hx hp
    exact .inl ⟨hf, hr, Except.ok.inj (hp.symm.trans (Snapshot.parse_readable hr))⟩
  · rename_i hf
    exact .inr ⟨hf, t, ht, hp⟩

/-- The latest version is the one that was written, unless it is below another one. -/
theorem latest_filed {x y : Snapshot} (hx : x.Clear)
    (h : Holds (filed entries x.version x.text) latestFile y) :
    highest entries ≤ x.version ∧ x.Readable ∧ y = x.settled.unreserved ∨
      ¬highest entries ≤ x.version ∧ Holds entries latestFile y := by
  have hf : (latestFile = versionFile x.version ∨
      latestFile = latestFile ∧ highest entries ≤ x.version) ↔ highest entries ≤ x.version := by
    simp [Ne.symm (latest_not_version x.version)]
  rcases held_filed hx h with ⟨hl, hr⟩ | ⟨hl, hr⟩
  · exact .inl ⟨hf.mp hl, hr⟩
  · exact .inr ⟨mt hf.mpr hl, hr⟩

/-- A version that is not the highest is below the latest one. -/
theorem Topped.below (h : Topped entries) {x : Snapshot} (hx : Holds entries latestFile x)
    (hle : ¬highest entries ≤ version) (h0 : 0 ≤ version) : version ≤ x.version := by
  rw [highest_le] at hle
  push Not at hle
  obtain ⟨e, he, w, hw, hlt⟩ := hle h0
  have hwn := (ne_nan_of_le (zero_le_version hw)).2
  have hvn := (ne_nan_of_le h0).2
  exact le_chain ((le_or_le hwn hvn).resolve_left hlt) (h.latest x hx e he w hw)

/-- Writing a version keeps the latest one on top, whatever number it has. -/
theorem Topped.written (h : Topped entries) {x : Snapshot} (hx : x.Clear) :
    Topped (filed entries x.version x.text) where
  flat f inner := by
    rw [lookup_filed]
    split
    · simp
    · exact h.flat f inner
  empty hl e he := by
    rw [lookup_filed] at hl
    split at hl
    · contradiction
    · rename_i hne
      have hold := h.empty hl
      rcases filed_mem he with he | hv
      · exact hold e he
      · cases hn : versionOf? e.1 with
        | none => rfl
        | some v =>
          have h0 := zero_le_version hn
          rw [hv v hn] at h0
          exact absurd (.inr ⟨rfl, by rwa [highest_empty hold]⟩) hne
  latest y hy e he v hv := by
    rcases latest_filed hx hy with ⟨hle, _, hver⟩ | ⟨hle, hold⟩
    · rw [hver]
      change v ≤ x.version
      rcases filed_mem he with he | hn
      · exact (highest_le.mp hle).2 e he v hv
      · rw [hn v hv]
        exact le_self (ne_nan_of_le hle).2
    · rcases filed_mem he with he | hn
      · exact h.latest y hold e he v hv
      · have h0 := zero_le_version hv
        rw [hn v hv] at h0 ⊢
        exact h.below hold hle h0

end

/-- A store with a latest version on top of every directory. -/
structure Tidy (s : Store) : Prop where
  plain : s.Plain
  ordered : Ordered s.top
  topped : ∀ d t, s.top.lookup d = some t → ∃ es, t = .directory es ∧ Topped es

theorem tidy_absent (path : Path) : Tidy ⟨path, none⟩ where
  plain := by simp [Plain]
  ordered := List.Pairwise.nil
  topped d t hl := by cases hl

namespace Tidy

variable {s s' : Store}

theorem changed (h : Tidy s) {d : String} {tree : Option FileTree} (hc : Changed s s' d tree)
    (ht : ∀ t, tree = some t → ∃ es, t = .directory es ∧ Topped es) : Tidy s' where
  plain := hc.plain
  ordered := hc.ordered
  topped other t hl := by
    rw [hc.lookup] at hl
    split at hl
    · exact ht t hl
    · exact h.topped other t hl

theorem shown (h : Tidy s) (d : String) : ∃ es, s.Shows d es ∧ Topped es := by
  cases hl : s.top.lookup d with
  | none => exact ⟨[], .inr ⟨hl, rfl⟩, topped_nil⟩
  | some t =>
    obtain ⟨es, rfl, ht⟩ := h.topped d t hl
    exact ⟨es, .inl hl, ht⟩

theorem saved (h : Tidy s) {x : Snapshot} (hx : x.Clear) {es : Entries}
    (hv : s.Shows (Key.directoryName x.key) es) (ht : Topped es) :
    ∃ s', (save x).Gives s s' () ∧ Tidy s' ∧ Changed s s' (Key.directoryName x.key)
      (some (.directory (filed es x.version x.text))) := by
  obtain ⟨s', hg, hc⟩ := put_given h.plain h.ordered hv ht.flat x.version x.toJson
  refine ⟨s', hg, h.changed hc fun t he => ?_, hc⟩
  cases he
  exact ⟨_, rfl, ht.written hx⟩

theorem cleared (h : Tidy s) (d : String) : Tidy (s.clear (s.path ++ [d])) :=
  h.changed (clear_shown h.plain h.ordered d) fun t ht => by cases ht

end Tidy

section

variable {s : Store} {key name : String} {entries : Entries} {x : Snapshot}

/-- What is read at the place of a file that is not there, or cannot be read. -/
theorem snapshot_shown (hv : s.Shows name entries) (f : String) :
    s.snapshotAt? (s.path ++ [name] ++ [f]) = match entries.lookup f with
      | none => .ok none
      | some tree => (snapshotIn (s.path ++ [name] ++ [f]) tree).map some := by
  cases hl : entries.lookup f <;> simp only [snapshotAt?, file_shown hv f, hl]

theorem snapshot_found_iff (hv : s.Shows name entries) {f : String} :
    s.snapshotAt? (s.path ++ [name] ++ [f]) = .ok (some x) ↔ Holds entries f x := by
  rw [snapshot_shown hv]
  constructor
  · intro h
    cases hl : entries.lookup f with
    | none =>
      rw [hl] at h
      cases h
    | some tree =>
      rw [hl] at h
      dsimp only at h
      cases ht : snapshotIn (s.path ++ [name] ++ [f]) tree with
      | error failure =>
        rw [ht] at h
        cases h
      | ok y =>
        rw [ht] at h
        obtain ⟨text, rfl, hp⟩ := snapshot_in_ok ht
        cases h
        exact ⟨text, hl, hp⟩
  · rintro ⟨text, hl, hp⟩
    rw [hl]
    simp only [snapshotIn, hp]
    rfl

theorem snapshot_none_iff (hv : s.Shows name entries) {f : String} :
    s.snapshotAt? (s.path ++ [name] ++ [f]) = .ok none ↔ entries.lookup f = none := by
  rw [snapshot_shown hv]
  cases entries.lookup f with
  | none => exact iff_of_true rfl rfl
  | some tree =>
    dsimp only
    cases snapshotIn (s.path ++ [name] ++ [f]) tree <;> simp [Except.map]

theorem load_answer (key : String) (s : Store) : (load key s).answer
    = s.snapshotAt? (s.path ++ [Key.directoryName key] ++ [latestFile]) := by
  unfold load
  simp only [Action.read, directory_of_key]
  rfl

theorem load_version_answer (key : String) (v : Binary64) (s : Store) :
    (loadVersion key v s).answer
      = s.snapshotAt? (s.path ++ [Key.directoryName key] ++ [versionFile v]) := by
  unfold loadVersion
  simp only [Action.read, directory_of_key]
  rfl

theorem load_missing (hv : s.Shows (Key.directoryName key) entries)
    (h : (load key s).answer = .ok none) : entries.lookup latestFile = none :=
  (snapshot_none_iff hv).mp ((load_answer key s).symm.trans h)

theorem load_holds (hv : s.Shows (Key.directoryName key) entries)
    (h : (load key s).answer = .ok (some x)) : Holds entries latestFile x :=
  (snapshot_found_iff hv).mp ((load_answer key s).symm.trans h)

theorem load_held (hv : s.Shows (Key.directoryName key) entries)
    (hx : Holds entries latestFile x) : (load key).Gives s s (some x) :=
  gives_load ((load_answer key s).trans ((snapshot_found_iff hv).mpr hx))

/-- A version can be read if its file holds it. -/
theorem load_version_iff (hv : s.Shows (Key.directoryName key) entries) {v : Binary64} :
    (loadVersion key v).Gives s s (some x) ↔ Holds entries (versionFile v) x := by
  rw [← snapshot_found_iff hv, ← load_version_answer]
  exact ⟨And.right, gives_load_version⟩

end

end Store

/-- The calls with documents and snapshots in which no object names a member twice. Any number may
be given as a version. -/
def Call.Clear (r : Registry) : Call → Prop
  | .check _ document => document.Distinct ∧ Json.Clear r.metadata
  | .snapshot _ document _ => document.Distinct ∧ Json.Clear r.metadata
  | .store (.save x) => x.Clear
  | _ => True

namespace Registry

open SchemaHistory.Action Binary64

variable {r : Registry} {s : Store}

theorem clear_of_document {document : Json} {current : ReadDocument}
    (hr : ReadDocument.ofJson document = .ok current) (hd : document.Distinct)
    (hm : Json.Clear r.metadata) (key : String) (v : Binary64) :
    (Snapshot.mk key current.schema r.now v (some r.metadata)).Clear := by
  refine ⟨Introspection.parse_clear hd (ReadDocument.of_json_ok hr).1, ?_⟩
  intro ms hms
  cases hms
  exact hm

theorem Files.clear {c : Call} {x : Snapshot} (hc : c.Clear r) (h : r.Files s c x) : x.Clear := by
  cases h with
  | checked hr _ => exact clear_of_document hr hc.1 hc.2 _ _
  | due hr _ => exact clear_of_document hr hc.1 hc.2 _ _
  | forced hr => exact clear_of_document hr hc.1 hc.2 _ _
  | saved x => exact hc

/-- What a call does to a tidy store: it writes nothing, or one snapshot, which the log reports, or
it deletes a key. -/
inductive Effect (r : Registry) (s : Store) (c : Call) : Prop where
  | still (h : (r.call c).Still s)
  | saved {x : Snapshot} {es : FileTree.Entries} (hx : r.Files s c x)
      (hv : s.Shows (Key.directoryName x.key) es) (ht : Store.Topped es)
      (hg : (Store.save x).Gives s (r.call c s).store ()) (ho : (r.call c s).store.Tidy)
      (hc : Store.Changed s (r.call c s).store (Key.directoryName x.key)
        (some (.directory (Store.filed es x.version x.text))))
      (hn : Log.filed (r.call c s).log = [(x.key, x.version)])
  | deleted {key : String} (hk : c = .store (.delete key))
      (hs : (r.call c s).store = s.clear (s.path ++ [Key.directoryName key]))

theorem call_effect (h : s.Tidy) {c : Call} (hc : c.Clear r) : r.Effect s c := by
  rcases r.call_writes s c with (hs | ⟨x, hx, hs⟩) | ⟨key, hk, hs, _⟩
  · exact .still hs
  · obtain ⟨es, hv, ht⟩ := h.shown (Key.directoryName x.key)
    obtain ⟨s', hg, ho, hchanged⟩ := h.saved (hx.clear hc) hv ht
    obtain rfl : s' = (r.call c s).store := hg.1.symm.trans hs.1.symm
    exact .saved hx hv ht hg ho hchanged (hs.2.trans (Store.filed_put hg.2))
  · exact .deleted hk hs

theorem call_tidy (h : s.Tidy) {c : Call} (hc : c.Clear r) : (r.call c s).store.Tidy := by
  cases call_effect h hc with
  | still hs =>
    rw [hs.1]
    exact h
  | saved _ _ _ _ ho => exact ho
  | deleted _ hs =>
    rw [hs]
    exact h.cleared _

/-- The version that is due is not below any version that is there. -/
theorem Due.highest_le {key : String} {model : Model} {v : Binary64} (h : r.Due s key model v)
    {es : FileTree.Entries} (hv : s.Shows (Key.directoryName key) es) (ht : Store.Topped es) :
    Store.highest es ≤ v := by
  cases h with
  | first hl =>
    rw [Store.highest_empty (ht.empty (Store.load_missing hv hl))]
    exact le_of_positive numbered_one.positive
  | @next existing previous hl _ _ =>
    obtain ⟨hi, h0⟩ := Store.load_whole hl
    exact le_chain (ht.highest_latest (Store.load_holds hv hl)) (le_next hi h0)

/-- A document that is kept under the number that is due is the latest version after that. -/
theorem due_kept (h : s.Tidy) {key : String} {document : Json} {current : ReadDocument}
    {v : Binary64} (hr : ReadDocument.ofJson document = .ok current) (hd : document.Distinct)
    (hm : Json.Clear r.metadata) (hdue : r.Due s key current.model v) :
    ∃ s' y, (Store.save ⟨key, current.schema, r.now, v, some r.metadata⟩).Gives s s' () ∧
      s'.Tidy ∧ (Store.load key).Gives s' s' (some y) ∧ y.version = v ∧
      Model.ofSchema y.schema = .ok current.model := by
  obtain ⟨es, hv, ht⟩ := h.shown (Key.directoryName key)
  obtain ⟨s', hg, htidy, hc⟩ := h.saved (clear_of_document hr hd hm key v) hv ht
  obtain ⟨y, hp, _, hy, hb⟩ :=
    Snapshot.reread (hdue.readable hr hd hm) (ReadDocument.of_json_ok hr).2
  refine ⟨s', y, hg, htidy, Store.load_held hc.shows ?_, hy, hb⟩
  exact Store.holds_filed (.inr ⟨rfl, hdue.highest_le hv ht⟩) hp

end Registry

theorem Store.run_tidy {s : Store} (h : s.Tidy) {calls : List (Registry × Call)}
    (hc : ∀ c ∈ calls, c.2.Clear c.1) : (s.run calls).Tidy := by
  induction calls generalizing s with
  | nil => exact h
  | cons c calls ih =>
    obtain ⟨hc, hcs⟩ := List.forall_mem_cons.mp hc
    exact ih (Registry.call_tidy h hc) hcs

end SchemaHistory
