import SchemaHistory.Proofs.Directories
import SchemaHistory.Proofs.SnapshotText

namespace SchemaHistory.Store

open Binary64 FileTree

/-- What is known of the versions of one key. -/
abbrev Versions := Binary64 → Option Snapshot

/-- `s` is the version `v`, and no version is above it. -/
def Highest (versions : Versions) (v : Binary64) (s : Snapshot) : Prop :=
  versions v = some s ∧ ∀ w, versions w ≠ none → w ≤ v

/-- A file of the directory is read as `s`. -/
def Holds (entries : Entries) (name : String) (s : Snapshot) : Prop :=
  ∃ text, entries.lookup name = some (.file text) ∧ Snapshot.parse text = .ok s

/-- The directory of a key that has versions: a file for each of them, a copy of the highest, and
nothing else. -/
structure Shelf (key : String) (versions : Versions) (entries : Entries) : Prop where
  ordered : Ordered entries
  files : ∀ f t, entries.lookup f = some t →
    f = latestFile ∨ ∃ v, versions v ≠ none ∧ f = versionFile v
  proper : ∀ v s, versions v = some s → v.Numbered ∧ s.key = key ∧ s.version = v
  held : ∀ v s, versions v = some s → Holds entries (versionFile v) s
  latest : ∃ v s, Highest versions v s ∧ Holds entries latestFile s

namespace Shelf

variable {key : String} {versions : Versions} {entries : Entries}

theorem numbered (h : Shelf key versions entries) {v : Binary64} (hv : versions v ≠ none) :
    v.Numbered := by
  obtain ⟨s, hs⟩ := Option.ne_none_iff_exists'.mp hv
  exact (h.proper v s hs).1

theorem not_directory (h : Shelf key versions entries) (f : String) :
    ∀ es, entries.lookup f ≠ some (.directory es) := by
  intro es hl
  obtain ⟨v, s, _, text, ht, _⟩ := h.latest
  rcases h.files f _ hl with rfl | ⟨w, hw, rfl⟩
  · rw [ht] at hl
    cases hl
  · obtain ⟨s, hs⟩ := Option.ne_none_iff_exists'.mp hw
    obtain ⟨text, ht, _⟩ := h.held w s hs
    rw [ht] at hl
    cases hl

/-- The version files are the versions. -/
theorem version_listed (h : Shelf key versions entries) {v : Binary64} :
    v ∈ entries.filterMap (fun e => versionOf? e.1) ↔ versions v ≠ none := by
  rw [List.mem_filterMap]
  constructor
  · intro he
    obtain ⟨⟨f, t⟩, hm, hv⟩ := he
    rcases h.files f t ((lookup_iff h.ordered).mpr hm) with rfl | ⟨w, hw, rfl⟩
    · rw [version_of_latest] at hv
      contradiction
    · rw [version_of_numbered (h.numbered hw)] at hv
      exact Option.some.inj hv ▸ hw
  · intro hv
    obtain ⟨s, hs⟩ := Option.ne_none_iff_exists'.mp hv
    obtain ⟨text, ht, _⟩ := h.held v s hs
    exact ⟨_, (lookup_iff h.ordered).mp ht, version_of_numbered (h.numbered hv)⟩

theorem highest_entry (h : Shelf key versions entries) {v : Binary64} {s : Snapshot}
    (hv : Highest versions v s) : highest entries = v := by
  have hw : ∀ w ∈ entries.filterMap (fun e => versionOf? e.1), w.Whole := fun w hm =>
    (h.numbered (h.version_listed.mp hm)).whole
  have hin : v ∈ entries.filterMap fun e => versionOf? e.1 := by
    rw [h.version_listed, hv.1]
    simp
  have hc : v.Numbered := (h.proper v s hv.1).1
  obtain ⟨hmem, hle⟩ := foldl_max whole_zero hw
  change highest entries ∈ _ at hmem
  change ∀ y ∈ _, y ≤ highest entries at hle
  have hvh := hle v (List.mem_cons_of_mem _ hin)
  rcases List.mem_cons.mp hmem with hz | hm
  · rw [hz] at hvh
    exact absurd hvh ((whole_lt_iff whole_zero hc.whole).mp hc.positive)
  · exact whole_le_antisymm (hw _ hm) hc.whole (hv.2 _ (h.version_listed.mp hm)) hvh

end Shelf

/-- The directory of a key, which is not there when the key has no version. -/
def Stock (key : String) (versions : Versions) (entries : Entries) : Prop :=
  Shelf key versions entries ∨ entries = [] ∧ ∀ v, versions v = none

theorem stock_file {key : String} {versions : Versions} {entries : Entries}
    (h : Stock key versions entries) (f : String) :
    ∀ es, entries.lookup f ≠ some (.directory es) := by
  rcases h with h | ⟨rfl, _⟩
  · exact h.not_directory f
  · intro es hl
    cases hl

/-- One more version, or another snapshot for a version. -/
def Versions.set (versions : Versions) (s : Snapshot) : Versions :=
  fun v => if v = s.version then some s else versions v

theorem set_self (versions : Versions) (s : Snapshot) : versions.set s s.version = some s :=
  if_pos rfl

theorem set_other {versions : Versions} {s : Snapshot} {v : Binary64} (h : v ≠ s.version) :
    versions.set s v = versions v :=
  if_neg h

/-- The files of a key after a version was written. -/
def filed (entries : Entries) (version : Binary64) (text : String) : Entries :=
  let written := FileTree.put (versionFile version) (.file text) entries
  if highest entries ≤ version then FileTree.put latestFile (.file text) written else written

theorem lookup_filed (entries : Entries) (version : Binary64) (text f : String) :
    (filed entries version text).lookup f
      = if f = versionFile version ∨ f = latestFile ∧ highest entries ≤ version then
          some (.file text)
        else entries.lookup f := by
  unfold filed
  dsimp only
  by_cases hh : highest entries ≤ version
  · rw [if_pos hh, lookup_put, lookup_put]
    by_cases hl : f = latestFile <;> by_cases hv : f = versionFile version <;> simp [hl, hv, hh]
  · rw [if_neg hh, lookup_put]
    by_cases hv : f = versionFile version <;> simp [hv, hh]

theorem ordered_filed {entries : Entries} (h : Ordered entries) (version : Binary64)
    (text : String) : Ordered (filed entries version text) := by
  unfold filed
  dsimp only
  split
  · exact put_ordered (put_ordered h)
  · exact put_ordered h

theorem holds_filed {entries : Entries} {version : Binary64} {text f : String} {s : Snapshot}
    (hf : f = versionFile version ∨ f = latestFile ∧ highest entries ≤ version)
    (hs : Snapshot.parse text = .ok s) : Holds (filed entries version text) f s :=
  ⟨text, by rw [lookup_filed, if_pos hf], hs⟩

theorem holds_kept {entries : Entries} {version : Binary64} {text f : String} {s : Snapshot}
    (hf : ¬(f = versionFile version ∨ f = latestFile ∧ highest entries ≤ version))
    (hs : Holds entries f s) : Holds (filed entries version text) f s := by
  obtain ⟨t, ht, hp⟩ := hs
  exact ⟨t, by rw [lookup_filed, if_neg hf, ht], hp⟩

section

variable {key text : String} {versions : Versions} {entries : Entries} {s : Snapshot}

theorem stock_ordered (h : Stock key versions entries) : Ordered entries := by
  rcases h with h | ⟨rfl, _⟩
  · exact h.ordered
  · exact List.Pairwise.nil

theorem stock_proper (h : Stock key versions entries) {v : Binary64} {x : Snapshot}
    (hx : versions v = some x) : v.Numbered ∧ x.key = key ∧ x.version = v := by
  rcases h with h | ⟨_, he⟩
  · exact h.proper v x hx
  · rw [he] at hx
    contradiction

theorem stock_held (h : Stock key versions entries) {v : Binary64} {x : Snapshot}
    (hx : versions v = some x) : Holds entries (versionFile v) x := by
  rcases h with h | ⟨_, he⟩
  · exact h.held v x hx
  · rw [he] at hx
    contradiction

theorem stock_files (h : Stock key versions entries) {f : String} {t : FileTree}
    (hl : entries.lookup f = some t) :
    f = latestFile ∨ ∃ v, versions v ≠ none ∧ f = versionFile v := by
  rcases h with h | ⟨rfl, _⟩
  · exact h.files f t hl
  · cases hl

/-- The copy of the highest version follows what is written, whether or not the version that is
written is the highest. -/
theorem latest_saved (h : Stock key versions entries) (hp : Snapshot.parse text = .ok s)
    (hc : s.version.Numbered) :
    ∃ v x, Highest (versions.set s) v x ∧ Holds (filed entries s.version text) latestFile x := by
  by_cases hh : highest entries ≤ s.version
  · refine ⟨s.version, s, ⟨if_pos rfl, fun w hw => ?_⟩, holds_filed (.inr ⟨rfl, hh⟩) hp⟩
    by_cases he : w = s.version
    · rw [he]
      exact whole_le_refl hc.whole
    · have hw : versions w ≠ none := by rwa [set_other he] at hw
      rcases h with h | ⟨_, hn⟩
      · obtain ⟨v, x, hv, _⟩ := h.latest
        rw [h.highest_entry hv] at hh
        have hvc : v.Numbered := (h.proper v x hv.1).1
        exact whole_le_trans (h.numbered hw).whole hvc.whole hc.whole (hv.2 w hw) hh
      · exact absurd (hn w) hw
  · rcases h with h | ⟨rfl, _⟩
    · obtain ⟨v, x, hv, hl⟩ := h.latest
      rw [h.highest_entry hv] at hh
      have hvc : v.Numbered := (h.proper v x hv.1).1
      have hne : v ≠ s.version := by
        intro heq
        subst heq
        exact hh (whole_le_refl hc.whole)
      refine ⟨v, x, ⟨(if_neg hne).trans hv.1, fun w hw => ?_⟩, holds_kept ?_ hl⟩
      · by_cases he : w = s.version
        · rw [he]
          exact (whole_le_total hvc.whole hc.whole).resolve_left hh
        · exact hv.2 w (by rwa [set_other he] at hw)
      · rw [h.highest_entry hv]
        rintro (he | ⟨_, he⟩)
        · exact latest_not_version _ he.symm
        · exact hh he
    · exact absurd ((whole_le_total whole_zero hc.whole).resolve_right
        ((whole_lt_iff whole_zero hc.whole).mp hc.positive)) hh

/-- Writing a version keeps the directory of its key in order. -/
theorem shelf_saved (h : Stock key versions entries) (hp : Snapshot.parse text = .ok s)
    (hc : s.version.Numbered) (hk : s.key = key) :
    Shelf key (versions.set s) (filed entries s.version text) where
  ordered := ordered_filed (stock_ordered h) _ _
  files f t hl := by
    rw [lookup_filed] at hl
    split at hl
    · rename_i hf
      rcases hf with rfl | ⟨rfl, _⟩
      · exact .inr ⟨s.version, by simp [Versions.set], rfl⟩
      · exact .inl rfl
    · rcases stock_files h hl with hf | ⟨v, hv, hf⟩
      · exact .inl hf
      · refine .inr ⟨v, ?_, hf⟩
        rw [Versions.set]
        split
        · simp
        · exact hv
  proper v x hx := by
    rw [Versions.set] at hx
    split at hx
    · rename_i he
      cases hx
      exact ⟨he ▸ hc, hk, he.symm⟩
    · exact stock_proper h hx
  held v x hx := by
    rw [Versions.set] at hx
    split at hx
    · rename_i he
      cases hx
      exact holds_filed (.inl (congrArg versionFile he)) hp
    · rename_i he
      refine holds_kept ?_ (stock_held h hx)
      rintro (hf | ⟨hf, _⟩)
      · exact he (version_file_injective hf)
      · exact latest_not_version _ hf
  latest := latest_saved h hp hc

end

end SchemaHistory.Store
