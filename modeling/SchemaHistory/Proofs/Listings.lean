import Mathlib.Data.Set.Function
import SchemaHistory.Proofs.Operations

namespace SchemaHistory.Store

open SchemaHistory.Action Binary64 FileTree

/-- Version files that can all be read are read in their order. -/
theorem read_versions {directory : Path} {versions : Versions} {files : Entries}
    (h : ∀ e ∈ files, ∃ v x text, versions v = some x ∧ x.version = v ∧
      e = (versionFile v, .file text) ∧ Snapshot.parse text = .ok x) :
    ∃ xs, (∀ s, (readVersions directory files).Gives s s xs) ∧
      xs.map (fun x => versionFile x.version) = files.map Prod.fst ∧
      ∀ x ∈ xs, versions x.version = some x := by
  induction files with
  | nil => exact ⟨[], gives_pure [], rfl, by simp⟩
  | cons e files ih =>
    obtain ⟨⟨v, x, text, hv, hx, rfl, hp⟩, hfiles⟩ := List.forall_mem_cons.mp h
    obtain ⟨xs, hg, hm, hxs⟩ := ih hfiles
    have hs : snapshotIn (directory ++ [versionFile v]) (.file text) = .ok x := by
      simp only [snapshotIn, hp]
    refine ⟨x :: xs, fun s => ?_, ?_, ?_⟩
    · rw [readVersions, hs]
      exact gives_bind (hg s) (gives_pure _ s)
    · rw [List.map_cons, List.map_cons, hm, hx]
    · exact List.forall_mem_cons.mpr ⟨hx ▸ hv, hxs⟩

/-- The versions of a key in ascending order: all of them, each once. -/
structure Ascending (versions : Versions) (xs : List Snapshot) : Prop where
  ascends : xs.Pairwise fun a b => a.version < b.version
  listed : ∀ x, x ∈ xs ↔ ∃ v, versions v = some x

section

variable {s : Store} {key : String} {versions : Versions} {entries : Entries}

theorem version_files (h : Shelf key versions entries) {e : String × FileTree}
    (he : e ∈ entries.filter fun e => (versionOf? e.1).isSome) :
    ∃ v x text, versions v = some x ∧ x.version = v ∧ e = (versionFile v, .file text) ∧
      Snapshot.parse text = .ok x := by
  obtain ⟨f, t⟩ := e
  obtain ⟨hm, hv⟩ := List.mem_filter.mp he
  have hl := (lookup_iff h.ordered).mpr hm
  rcases h.files f t hl with rfl | ⟨v, hw, rfl⟩
  · rw [version_of_latest] at hv
    contradiction
  · obtain ⟨x, hx⟩ := Option.ne_none_iff_exists'.mp hw
    obtain ⟨text, ht, hp⟩ := h.held v x hx
    rw [ht] at hl
    exact ⟨v, x, text, hx, (h.proper v x hx).2.2, by rw [← Option.some.inj hl], hp⟩

theorem shelf_files (h : Shelf key versions entries) {v : Binary64} {x : Snapshot}
    (hx : versions v = some x) :
    versionFile v ∈ (entries.filter fun e => (versionOf? e.1).isSome).map Prod.fst := by
  obtain ⟨text, ht, _⟩ := h.held v x hx
  refine List.mem_map.mpr ⟨(versionFile v, .file text), List.mem_filter.mpr ⟨?_, ?_⟩, rfl⟩
  · exact (lookup_iff h.ordered).mp ht
  · simp only [version_of_numbered (h.proper v x hx).1, Option.isSome_some]

theorem sorted_ascending {xs : List Snapshot} (h : Stock key versions entries)
    (hn : (xs.map Snapshot.version).Nodup) (hm : ∀ x, x ∈ xs ↔ ∃ v, versions v = some x) :
    Ascending versions (xs.mergeSort fun a b => a.version ≤ b.version) := by
  have hp : (xs.mergeSort fun a b => a.version ≤ b.version).Perm xs := List.mergeSort_perm _ _
  have hw : ∀ x ∈ xs, x.version.Whole := by
    intro x hx
    obtain ⟨v, hv⟩ := (hm x).mp hx
    obtain ⟨hc, _, he⟩ := stock_proper h hv
    rw [he]
    exact hc.whole
  have hs := pairwise_sorted (p := fun x : Snapshot => x.version.Whole)
    (r := fun a b => a.version ≤ b.version) hw
    (fun a b c ha hb hc hab hbc => by
      simp only [decide_eq_true_eq] at hab hbc ⊢
      exact whole_le_trans ha hb hc hab hbc)
    (fun a b ha hb => by
      simp only [Bool.or_eq_true, decide_eq_true_eq]
      exact whole_le_total ha hb)
  have hd := (hp.map Snapshot.version).nodup_iff.mpr hn
  rw [List.Nodup, List.pairwise_map] at hd
  refine ⟨?_, fun x => by rw [hp.mem_iff, hm]⟩
  refine List.Pairwise.imp_of_mem ?_ (hs.and hd)
  intro a b ha hb hab
  simp only [decide_eq_true_eq] at hab
  have hwa := hw a (hp.mem_iff.mp ha)
  have hwb := hw b (hp.mem_iff.mp hb)
  refine (whole_lt_iff hwa hwb).mpr fun hba => hab.2 ?_
  exact whole_le_antisymm hwa hwb hab.1 hba

/-- The last of the ascending versions is the highest. -/
theorem ascending_last (h : Stock key versions entries) {xs : List Snapshot}
    (ha : Ascending versions xs) : IsLatest versions xs.getLast? := by
  rcases List.eq_nil_or_concat' xs with rfl | ⟨ys, x, rfl⟩
  · intro v
    cases hv : versions v with
    | none => rfl
    | some y => exact absurd ((ha.listed y).mpr ⟨v, hv⟩) List.not_mem_nil
  · obtain ⟨v, hv⟩ := (ha.listed x).mp List.mem_concat_self
    obtain ⟨hc, _, he⟩ := stock_proper h hv
    rw [List.getLast?_concat]
    refine ⟨v, hv, ?_⟩
    intro w hw
    obtain ⟨y, hy⟩ := Option.ne_none_iff_exists'.mp hw
    obtain ⟨hcy, _, hey⟩ := stock_proper h hy
    rcases List.mem_append.mp ((ha.listed y).mpr ⟨w, hy⟩) with hm | hm
    · have hlt := (List.pairwise_append.mp ha.ascends).2.2 y hm x List.mem_cons_self
      rw [hey, he, whole_lt_iff hcy.whole hc.whole] at hlt
      exact (whole_le_total hcy.whole hc.whole).resolve_right hlt
    · obtain rfl : y = x := List.mem_singleton.mp hm
      rw [← hey, he]
      exact whole_le_refl hc.whole

theorem ascending_unique (h : Stock key versions entries) {xs ys : List Snapshot}
    (hx : Ascending versions xs) (hy : Ascending versions ys) : xs = ys := by
  have hm : ∀ x, x ∈ xs ↔ x ∈ ys := fun x => (hx.listed x).trans (hy.listed x).symm
  apply ascending_determined hx.ascends hy.ascends hm
  intro a b ha hb hab
  obtain ⟨v, hv⟩ := (hx.listed a).mp ha
  obtain ⟨w, hw⟩ := (hx.listed b).mp hb
  obtain ⟨hcv, _, rfl⟩ := stock_proper h hv
  obtain ⟨hcw, _, rfl⟩ := stock_proper h hw
  rw [whole_lt_iff hcv.whole hcw.whole] at hab
  rw [whole_lt_iff hcw.whole hcv.whole, not_not]
  exact (whole_le_total hcv.whole hcw.whole).resolve_right hab

theorem latest_unique (h : Stock key versions entries) {x y : Option Snapshot}
    (hx : IsLatest versions x) (hy : IsLatest versions y) : x = y := by
  cases x with
  | none =>
    cases y with
    | none => rfl
    | some y =>
      obtain ⟨v, hv, _⟩ := hy
      rw [hx v] at hv
      contradiction
  | some x =>
    obtain ⟨v, hv, hvt⟩ := hx
    cases y with
    | none =>
      rw [hy v] at hv
      contradiction
    | some y =>
      obtain ⟨w, hw, hwt⟩ := hy
      have he : v = w := whole_le_antisymm (stock_proper h hv).1.whole (stock_proper h hw).1.whole
        (hwt v (by simp [hv])) (hvt w (by simp [hw]))
      rw [he, hw] at hv
      exact hv.symm

/-- What is read for a key is all of its versions, each once. -/
theorem stock_read {directory : Path} (h : Stock key versions entries) :
    ∃ xs, (∀ s, (readVersions directory
        (entries.filter fun e => (versionOf? e.1).isSome)).Gives s s xs) ∧
      (xs.map Snapshot.version).Nodup ∧ ∀ x, x ∈ xs ↔ ∃ v, versions v = some x := by
  rcases h with h | ⟨rfl, hn⟩
  · obtain ⟨xs, hg, hf, hx⟩ := read_versions (fun e he => version_files h he)
    refine ⟨xs, hg, ?_, ?_⟩
    · have hd : ((entries.filter fun e => (versionOf? e.1).isSome).map Prod.fst).Nodup :=
        names_nodup (h.ordered.filter _)
      rw [← hf] at hd
      apply List.Nodup.of_map versionFile
      rw [List.map_map]
      exact hd
    · intro x
      constructor
      · intro hm
        exact ⟨_, hx x hm⟩
      · rintro ⟨v, hv⟩
        have hm := shelf_files h hv
        rw [← hf] at hm
        obtain ⟨y, hy, he⟩ := List.mem_map.mp hm
        have hxy := hx y hy
        rw [version_file_injective he, hv] at hxy
        rw [Option.some.inj hxy]
        exact hy
  · exact ⟨[], gives_pure [], by simp, by simp [hn]⟩

/-- Listing the versions of a key answers with all of them in ascending order. -/
theorem versions_given (hv : s.Shows (Key.directoryName key) entries)
    (h : Stock key versions entries) :
    ∃ xs, (Store.versions key).Gives s s xs ∧ Ascending versions xs := by
  obtain ⟨xs, hg, hn, hm⟩ := stock_read h
  refine ⟨_, ?_, sorted_ascending h hn hm⟩
  unfold Store.versions
  exact gives_bind (gives_read (directory_of_key s key))
    (gives_bind (gives_read (entries_shown hv)) (gives_bind (hg s) (gives_pure _ s)))

end

/-- Every directory of a store is that of one of some keys, and its latest version says of which. -/
structure Keyed (names : Set String) (s : Store) : Prop where
  plain : s.Plain
  ordered : Ordered s.top
  keyed : ∀ d t, s.top.lookup d = some t → ∃ k ∈ names, d = Key.directoryName k ∧
    ∃ es x, t = .directory es ∧ Holds es latestFile x ∧ x.key = k

section

variable {names : Set String} {s : Store}

theorem entries_top (hp : s.Plain) : s.entries s.path = .ok s.top := by
  obtain ⟨path, root⟩ := s
  rw [Store.entries, at?, List.drop_length]
  cases root with
  | none => rfl
  | some tree =>
    cases tree with
    | file text => exact absurd rfl (hp text)
    | directory entries => rfl

/-- Directories of keys that can all be read are read in their order. -/
theorem read_keys {path : Path} {files : Entries}
    (h : ∀ e ∈ files, ∃ k ∈ names, e.1 = Key.directoryName k ∧
      ∃ es x, e.2 = .directory es ∧ Holds es latestFile x ∧ x.key = k) :
    ∃ ks, (∀ s, (readKeys path files).Gives s s ks) ∧
      ks.map Key.directoryName = files.map Prod.fst ∧ ∀ k ∈ ks, k ∈ names := by
  induction files with
  | nil => exact ⟨[], gives_pure [], rfl, by simp⟩
  | cons e files ih =>
    obtain ⟨d, t⟩ := e
    obtain ⟨⟨k, hk, hd, es, x, ht, ⟨text, hl, hp⟩, hx⟩, hfiles⟩ := List.forall_mem_cons.mp h
    obtain ⟨ks, hg, hm, hks⟩ := ih hfiles
    have hr : snapshotIn (path ++ [d, latestFile]) (.file text) = .ok x := by
      simp only [snapshotIn, hp]
    obtain rfl : t = .directory es := ht
    have hc : child? latestFile (.directory es) = some (.file text) := hl
    refine ⟨k :: ks, fun s => ?_, ?_, List.forall_mem_cons.mpr ⟨hk, hks⟩⟩
    · rw [readKeys, hc]
      dsimp only
      rw [hr]
      dsimp only
      rw [hx]
      exact gives_bind (hg s) (gives_pure _ s)
    · rw [List.map_cons, List.map_cons, hm, ← hd]

/-- Listing the keys answers with those that have a directory, each once. -/
theorem Keyed.keys_given (h : Keyed names s) (hn : Set.InjOn Key.directoryName names) :
    ∃ ks, keys.Gives s s ks ∧ ks.Pairwise (fun a b => Text.units a < Text.units b) ∧
      ∀ k, k ∈ ks ↔ k ∈ names ∧ s.top.lookup (Key.directoryName k) ≠ none := by
  obtain ⟨ks, hg, hd, hks⟩ := read_keys fun e he =>
    h.keyed e.1 e.2 ((lookup_iff h.ordered).mpr he)
  have hnodup : ks.Nodup := by
    apply List.Nodup.of_map Key.directoryName
    rw [hd]
    exact names_nodup h.ordered
  refine ⟨Text.sortByUnits ks, ?_, Text.sorted_units hnodup, ?_⟩
  · unfold keys
    exact gives_bind (gives_read rfl) (gives_bind (gives_read (entries_top h.plain))
      (gives_bind (hg s) (gives_pure _ s)))
  · intro k
    have hp : (Text.sortByUnits ks).Perm ks := List.mergeSort_perm _ _
    rw [hp.mem_iff]
    constructor
    · intro hk
      have hm := List.mem_map_of_mem (f := Key.directoryName) hk
      rw [hd] at hm
      obtain ⟨⟨d, t⟩, he, rfl⟩ := List.mem_map.mp hm
      have hl := (lookup_iff h.ordered).mpr he
      exact ⟨hks k hk, by simp [hl]⟩
    · rintro ⟨hk, hl⟩
      obtain ⟨t, ht⟩ := Option.ne_none_iff_exists'.mp hl
      have hm := List.mem_map_of_mem (f := Prod.fst) ((lookup_iff h.ordered).mp ht)
      rw [← hd] at hm
      obtain ⟨j, hj, he⟩ := List.mem_map.mp hm
      rw [← hn (hks j hj) hk he]
      exact hj

end

end SchemaHistory.Store
