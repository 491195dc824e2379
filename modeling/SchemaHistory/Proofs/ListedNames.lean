import SchemaHistory.Proofs.Confinement

namespace SchemaHistory.Store

open SchemaHistory.Action FileTree

/-- Two keys stand for one directory: whatever is done with one of them is done with the other. -/
structure Together (key other : String) : Prop where
  load : Store.load key = Store.load other
  loadVersion : ∀ v, Store.loadVersion key v = Store.loadVersion other v
  versions : Store.versions key = Store.versions other
  delete : Store.delete key = Store.delete other

theorem together_iff {key other : String} :
    Together key other ↔ Key.directoryName key = Key.directoryName other := by
  constructor
  · intro h
    by_contra hne
    -- One directory is all that this store holds, and only its own key clears it.
    let s : Store := ⟨[], some (.directory [(Key.directoryName other, .directory [])])⟩
    have hb := clear_beside s (Key.directoryName key)
    have hk := hb.lookup (Key.directoryName other) (Ne.symm hne)
    have hs := congrArg (fun x => (x s).store.top.lookup (Key.directoryName other)) h.delete
    simp only [delete_step, clear_lookup] at hs
    rw [hs] at hk
    simp [s, top] at hk
  · intro h
    have hd : ∀ s : Store, s.directoryOf key = .ok (s.path ++ [Key.directoryName other]) :=
      fun s => h ▸ directory_of_key s key
    constructor
    · simp only [Store.load, hd, directory_of_key]
    · intro v
      simp only [Store.loadVersion, hd, directory_of_key]
    · simp only [Store.versions, hd, directory_of_key]
    · simp only [Store.delete, hd, directory_of_key]

/-- A directory has a latest version that cannot be read. -/
def Unread (path : Path) (e : String × FileTree) : Prop :=
  ∃ latest failure, e.2.child? latestFile = some latest ∧
    snapshotIn (path ++ [e.1, latestFile]) latest = .error failure

/-- Where the latest version cannot be read, the name of the directory is listed. -/
theorem read_keys_unread (path : Path) (files : Entries) : ∃ ks,
    (∀ s, (readKeys path files).Gives s s ks) ∧ ∀ e ∈ files, Unread path e → e.1 ∈ ks := by
  induction files with
  | nil => exact ⟨[], gives_pure [], by simp⟩
  | cons e files ih =>
    obtain ⟨name, tree⟩ := e
    obtain ⟨ks, hg, hks⟩ := ih
    rw [readKeys]
    cases hc : tree.child? latestFile with
    | none =>
      refine ⟨ks, hg, List.forall_mem_cons.mpr ⟨?_, hks⟩⟩
      rintro ⟨latest, _, hl, _⟩
      rw [hc] at hl
      cases hl
    | some latest =>
      dsimp only
      cases hs : snapshotIn (path ++ [name, latestFile]) latest with
      | ok x =>
        refine ⟨x.key :: ks, fun s => gives_bind (hg s) (gives_pure _ s),
          List.forall_mem_cons.mpr ⟨?_, fun e he hu => List.mem_cons_of_mem _ (hks e he hu)⟩⟩
        rintro ⟨latest', _, hl, hf⟩
        obtain rfl := Option.some.inj (hc.symm.trans hl)
        rw [hs] at hf
        cases hf
      | error failure =>
        refine ⟨name :: ks, fun s => gives_bind (gives_log _ _ _ s)
          (gives_bind (hg s) (gives_pure _ s)), List.forall_mem_cons.mpr ⟨fun _ => ?_, ?_⟩⟩
        · exact List.mem_cons_self
        · exact fun e he hu => List.mem_cons_of_mem _ (hks e he hu)

theorem unread_of_load {s : Store} {key : String} {failure : Failure}
    (h : (load key s).answer = .error failure) :
    ∃ tree, s.top.lookup (Key.directoryName key) = some tree ∧
      Unread s.path (Key.directoryName key, tree) := by
  rw [load_answer] at h
  obtain ⟨latest, hat, hs⟩ := snapshot_at_error h
  rw [at_file] at hat
  obtain ⟨tree, hd, hc⟩ := Option.bind_eq_some_iff.mp hat
  rw [List.append_assoc] at hs
  exact ⟨tree, hd, latest, failure, hc, hs⟩

/-- A key whose latest version cannot be read is listed by the name of its directory. -/
theorem keys_unread {s : Store} {key : String} {failure : Failure}
    (h : (load key s).answer = .error failure) :
    ∃ ks, keys.Gives s s ks ∧ Key.directoryName key ∈ ks := by
  obtain ⟨tree, hd, hu⟩ := unread_of_load h
  have hp : s.Plain := by
    intro text ht
    simp [top, ht] at hd
  obtain ⟨ks, hg, hks⟩ := read_keys_unread s.path s.top
  refine ⟨Text.sortByUnits ks, ?_, ?_⟩
  · unfold keys
    exact gives_bind (gives_read rfl) (gives_bind (gives_read (entries_top hp))
      (gives_bind (hg s) (gives_pure _ s)))
  · have hm := hks _ (mem_of_lookup hd) hu
    exact (List.mergeSort_perm ks Text.unitsLe).mem_iff.mpr hm

/-- The directory of one key, after another key was deleted. -/
theorem lookup_deleted (key other : String) (s : Store) :
    (delete other s).store.top.lookup (Key.directoryName key)
      = if Key.directoryName key = Key.directoryName other then none
        else s.top.lookup (Key.directoryName key) := by
  rw [delete_step]
  split
  · rename_i h
    rw [h, clear_lookup]
  · rename_i h
    exact (clear_beside s _).lookup _ h

/-- The name of a directory leads back to it, as a key of its own, unless the key that it was made
of begins with 200 dots. A store lists the name where the latest version cannot be read, and to
delete the name then deletes the directory, with the same exception. -/
theorem listed_name_leads_back (key : String) :
    (Key.directoryName (Key.directoryName key) = Key.directoryName key ↔
      ¬List.replicate 200 '.' <+: Key.withoutScheme key.toList) ∧
    (Together (Key.directoryName key) key ↔
      ¬List.replicate 200 '.' <+: Key.withoutScheme key.toList) ∧
    ∀ (s : Store) (failure : Failure), (load key s).answer = .error failure →
      ∃ ks, keys.Gives s s ks ∧ Key.directoryName key ∈ ks ∧
        ((delete (Key.directoryName key) s).store.top.lookup (Key.directoryName key) = none ↔
          ¬List.replicate 200 '.' <+: Key.withoutScheme key.toList) := by
  have hself := Key.directory_name_iff key
  refine ⟨hself, together_iff.trans hself, fun s failure h => ?_⟩
  obtain ⟨ks, hg, hm⟩ := keys_unread h
  obtain ⟨tree, hd, _⟩ := unread_of_load h
  refine ⟨ks, hg, hm, Iff.trans ?_ hself⟩
  rw [lookup_deleted, hd]
  simp [eq_comm]

/-- The name of a key in a store where its latest version cannot be read leads back to it. -/
theorem listed_name_leads_back_broken : ∃ failure ks,
    (load "shop" broken).answer = .error failure ∧ keys.Gives broken broken ks ∧
    Key.directoryName "shop" ∈ ks ∧ Together (Key.directoryName "shop") "shop" ∧
    (delete (Key.directoryName "shop") broken).store.top.lookup (Key.directoryName "shop")
      = none := by
  have hshort : ¬List.replicate 200 '.' <+: Key.withoutScheme "shop".toList := by decide
  obtain ⟨_, htogether, hlisted⟩ := listed_name_leads_back "shop"
  obtain ⟨ks, hg, hm, hdeleted⟩ := hlisted broken _ load_broken
  exact ⟨_, ks, load_broken, hg, hm, htogether.mpr hshort, hdeleted.mpr hshort⟩

/-- As many dots as a name may have characters. -/
def dots : String := String.ofList (List.replicate 200 '.')

/-- A store with a directory for that key, and a latest version in it that cannot be read. -/
def dotted : Store :=
  ⟨["srv"], some (.directory [(Key.directoryName dots, .directory [(latestFile, .file "")])])⟩

/-- The name of the directory for 200 dots is no name for itself. It is listed where the latest
version cannot be read, but nothing is found under it, and to delete it leaves the directory. -/
theorem listed_name_leads_away :
    Key.directoryName (Key.directoryName dots) ≠ Key.directoryName dots ∧
    ∃ failure ks, (load dots dotted).answer = .error failure ∧ keys.Gives dotted dotted ks ∧
      Key.directoryName dots ∈ ks ∧
      (load (Key.directoryName dots) dotted).answer = .ok none ∧
      (delete (Key.directoryName dots) dotted).store.top.lookup (Key.directoryName dots)
        ≠ none := by
  have hne : Key.directoryName (Key.directoryName dots) ≠ Key.directoryName dots := by
    have hd : dots.toList = List.replicate 200 '.' := String.toList_ofList
    have hs : '/' ∉ List.replicate 200 '.' :=
      fun h => absurd (List.eq_of_mem_replicate h) (by decide)
    rw [Ne, Key.directory_name_iff, not_not, hd, Key.without_scheme_self hs]
    exact List.prefix_rfl
  have hparse : Snapshot.parse "" = .error "JSON syntax error" := by
    have hread : Json.parse? "" = none := by
      rw [Json.parse?, Json.read?, String.toList_empty, Json.Token.scan_nil]
      rfl
    rw [Snapshot.parse, hread]
  have htop : dotted.top.lookup (Key.directoryName dots)
      = some (.directory [(latestFile, .file "")]) := List.lookup_cons_self
  have hload : (load dots dotted).answer = .error (.corruptSnapshot
      (dotted.path ++ [Key.directoryName dots] ++ [latestFile]).text "JSON syntax error") := by
    rw [load_answer, snapshotAt?, at_file, htop, Option.bind_some, child?, List.lookup_cons_self]
    simp only [snapshotIn, hparse]
    rfl
  obtain ⟨ks, hg, hm⟩ := keys_unread hload
  refine ⟨hne, _, ks, hload, hg, hm, ?_, ?_⟩
  · have hother : dotted.top.lookup (Key.directoryName (Key.directoryName dots)) = none :=
      lookup_skip hne _ []
    rw [load_answer, snapshotAt?, at_file, hother]
    rfl
  · rw [lookup_deleted, if_neg hne.symm, htop]
    simp

end SchemaHistory.Store
