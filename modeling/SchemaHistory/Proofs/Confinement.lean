import SchemaHistory.Proofs.DirectoryNames
import SchemaHistory.Proofs.Failures
import SchemaHistory.Proofs.Latest

namespace SchemaHistory

namespace FileTree

theorem at_cons (name : String) (path : Path) (tree : Option FileTree) :
    tree.bind (at? (name :: path)) = (tree.bind (child? name)).bind (at? path) := by
  cases tree <;> rfl

/-- What stands below a place after it was changed. -/
theorem update_below {change : Option FileTree → Option FileTree} {path : Path}
    {tree changed : Option FileTree} (h : update? change path tree = some changed)
    (inside : Path) : changed.bind (at? (path ++ inside))
      = (change (tree.bind (at? path))).bind (at? inside) := by
  induction path generalizing tree changed with
  | nil =>
    cases h
    exact congrArg (fun t => (change t).bind (at? inside)) (Option.bind_fun_some tree).symm
  | cons name path ih =>
    obtain ⟨inner, hi, hc⟩ := update_child h
    rw [List.cons_append, at_cons, at_cons, hc, if_pos rfl, ih hi]

theorem update_no_file {change : Option FileTree → Option FileTree} {name : String} {path : Path}
    {tree changed : Option FileTree} (h : update? change (name :: path) tree = some changed)
    (text : String) : tree ≠ some (.file text) ∧ changed ≠ some (.file text) := by
  match tree with
  | none =>
    obtain ⟨inner, _, rfl⟩ := Option.map_eq_some_iff.mp h
    cases inner <;> simp
  | some (.file _) => contradiction
  | some (.directory _) =>
    obtain ⟨inner, _, rfl⟩ := Option.map_eq_some_iff.mp h
    cases inner <;> simp

/-- A change leaves the files as they are that are not below its place. -/
theorem update_elsewhere {change : Option FileTree → Option FileTree} {path place : Path}
    {tree changed : Option FileTree} (h : update? change path tree = some changed)
    (hp : ¬path <+: place) (text : String) :
    changed.bind (at? place) = some (.file text) ↔ tree.bind (at? place) = some (.file text) := by
  induction path generalizing tree changed place with
  | nil => exact absurd List.nil_prefix hp
  | cons name path ih =>
    cases place with
    | nil =>
      obtain ⟨ht, hc⟩ := update_no_file h text
      have hself (t : Option FileTree) : t.bind (at? []) = t := Option.bind_fun_some t
      rw [hself, hself]
      exact iff_of_false hc ht
    | cons other place =>
      obtain ⟨inner, hi, hc⟩ := update_child h
      rw [at_cons, at_cons, hc]
      split
      · rename_i ho
        subst ho
        exact ih hi fun hs => hp (List.cons_prefix_cons.mpr ⟨rfl, hs⟩)
      · rfl

theorem at_append (path inside : Path) (tree : FileTree) :
    tree.at? (path ++ inside) = (tree.at? path).bind (at? inside) := by
  induction path generalizing tree with
  | nil => rfl
  | cons name path ih =>
    change (tree.child? name).bind (at? (path ++ inside))
      = ((tree.child? name).bind (at? path)).bind (at? inside)
    cases tree.child? name with
    | none => rfl
    | some t => exact ih t

end FileTree

namespace Store

open SchemaHistory.Action FileTree

/-- The files of a store outside one directory are the same as before, and hold the same. -/
structure Spared (s s' : Store) (d : String) : Prop where
  path : s'.path = s.path
  files : ∀ (inside : Path) (text : String), ¬[d] <+: inside →
    (s'.root.bind (FileTree.at? inside) = some (.file text) ↔
      s.root.bind (FileTree.at? inside) = some (.file text))

namespace Spared

theorem refl (s : Store) (d : String) : Spared s s d :=
  ⟨rfl, fun _ _ _ => Iff.rfl⟩

theorem trans {s s' s'' : Store} {d : String} (h : Spared s s' d) (h' : Spared s' s'' d) :
    Spared s s'' d :=
  ⟨h'.path.trans h.path, fun inside text hi =>
    (h'.files inside text hi).trans (h.files inside text hi)⟩

end Spared

theorem update_spared {s : Store} {d : String} {inside : Path}
    {change : Option FileTree → Option FileTree} {root : Option FileTree}
    (h : update? change (d :: inside) s.root = some root) :
    Spared s { s with root := root } d := by
  refine ⟨rfl, fun place text hp => update_elsewhere h (fun hs => hp ?_) text⟩
  exact List.IsPrefix.trans ⟨inside, rfl⟩ hs

theorem clear_spared (s : Store) (d : String) : Spared s (s.clear (s.path ++ [d])) d := by
  unfold clear
  rw [List.drop_left]
  split
  · rename_i h
    exact update_spared h
  · exact .refl s d

theorem write_file_spared {s s' : Store} {d name text : String}
    (h : s.writeFile (s.path ++ [d]) name text = .ok s') : Spared s s' d := by
  unfold writeFile at h
  split at h
  · contradiction
  · rw [List.drop_left] at h
    dsimp only at h
    split at h
    · rename_i hu
      cases h
      exact update_spared hu
    · contradiction

theorem spared_bind {α β : Type} {x : Action α} {f : α → Action β} {s : Store} {d : String}
    (hx : Spared s (x s).store d)
    (hf : ∀ a, (x s).answer = .ok a → Spared (x s).store (f a (x s).store).store d) :
    Spared s ((x >>= f) s).store d := by
  cases ha : (x s).answer with
  | error failure =>
    rw [after_error ha]
    exact hx
  | ok a =>
    rw [after_ok ha]
    exact hx.trans (hf a ha)

theorem spared_write {s t : Store} {d : String} (h : Spared s t d) (name text : String) :
    Spared t (Action.write (fun t => t.writeFile (s.path ++ [d]) name text) t).store d := by
  unfold Action.write
  rw [← h.path]
  split
  · rename_i hw
    exact write_file_spared hw
  · exact .refl t d

theorem put_spared (key : String) (version : Binary64) (content : Json) (s : Store) :
    Spared s (put key version content s).store (Key.directoryName key) := by
  unfold put
  refine spared_bind (.refl s _) fun directory hd => ?_
  obtain rfl : s.path ++ [Key.directoryName key] = directory := by
    simp only [Action.read, directory_of_key] at hd
    exact Except.ok.inj hd
  refine spared_bind (.refl s _) fun top _ => ?_
  have hw := spared_write (.refl s (Key.directoryName key)) (versionFile version) content.pretty
  refine spared_bind hw fun _ _ => ?_
  dsimp only
  split
  · exact spared_bind (spared_write hw latestFile content.pretty) fun _ _ => .refl _ _
  · exact .refl _ _

/-- A call touches no file outside the directory of its key. -/
theorem call_spared (r : Registry) {c : Call} {key : String} (h : c.target? = some key)
    (s : Store) : Spared s (r.call c s).store (Key.directoryName key) := by
  rcases r.call_writes s c with (hs | ⟨x, hx, hs⟩) | ⟨k, rfl, hs, _⟩
  · rw [hs.1]
    exact .refl s _
  · obtain rfl : x.key = key := Option.some.inj (hx.target.symm.trans h)
    rw [hs.1]
    exact put_spared x.key x.version x.toJson s
  · obtain rfl : k = key := Option.some.inj h
    rw [hs]
    exact clear_spared s _

/-- Where a store is one place of all files, the other files are the same outside one directory of
it. -/
theorem Spared.everywhere {files : FileTree} {base place : Path} {s : Store} {d : String}
    (h : Spared ⟨base, files.at? base⟩ s d) (hp : ¬base ++ [d] <+: place) (text : String) :
    (files.replace base s.root).at? place = some (.file text)
      ↔ files.at? place = some (.file text) := by
  unfold replace
  split
  · rename_i changed hu
    by_cases hb : base <+: place
    · obtain ⟨inside, rfl⟩ := hb
      have hi : ¬[d] <+: inside := fun hs => hp ((List.prefix_append_right_inj base).mpr hs)
      have hc : changed.at? (base ++ inside) = s.root.bind (FileTree.at? inside) :=
        update_below hu inside
      rw [hc, at_append]
      exact h.files inside text hi
    · exact update_elsewhere hu hb text
  · rfl

theorem read_versions_sure (directory : Path) (files : Entries) :
    (readVersions directory files).Sure := by
  induction files with
  | nil => exact sure_pure []
  | cons e files ih =>
    rw [readVersions]
    split
    · exact sure_bind ih fun xs => sure_pure _
    · exact sure_bind (sure_log _ _ _) fun _ => ih

theorem read_keys_sure (path : Path) (files : Entries) : (readKeys path files).Sure := by
  induction files with
  | nil => exact sure_pure []
  | cons e files ih =>
    rw [readKeys]
    split
    · exact ih
    · split
      · exact sure_bind ih fun ks => sure_pure _
      · exact sure_bind (sure_log _ _ _) fun _ => sure_bind ih fun ks => sure_pure _

theorem versions_sure (key : String) : (versions key).Sure := by
  unfold versions
  refine sure_bind (sure_read fun s failure h => ?_) fun directory => ?_
  · rw [directory_of_key] at h
    contradiction
  · refine sure_bind (sure_read fun s => entries_sure s directory) fun files => ?_
    exact sure_bind (read_versions_sure _ _) fun _ => sure_pure _

theorem keys_sure : keys.Sure := by
  unfold keys
  refine sure_bind (sure_ok fun s => ⟨s.path, rfl⟩) fun path => ?_
  refine sure_bind (sure_read fun s => entries_sure s s.path) fun files => ?_
  exact sure_bind (read_keys_sure _ _) fun _ => sure_pure _

/-- To read a snapshot fails where something is there that is none. -/
theorem snapshot_at_error {s : Store} {path : Path} {failure : Failure}
    (h : s.snapshotAt? path = .error failure) :
    ∃ tree, s.at? path = some tree ∧ snapshotIn path tree = .error failure := by
  unfold snapshotAt? at h
  split at h
  · contradiction
  · rename_i tree hat
    refine ⟨tree, hat, ?_⟩
    cases hs : snapshotIn path tree with
    | ok x =>
      rw [hs] at h
      contradiction
    | error e =>
      rw [hs] at h
      exact congrArg Except.error (Except.error.inj h)

theorem snapshot_in_fails {path : Path} {tree : FileTree} {failure : Failure}
    (h : snapshotIn path tree = .error failure) :
    ∃ reason, failure = .corruptSnapshot path.text reason := by
  cases tree with
  | file text =>
    simp only [snapshotIn] at h
    split at h
    · contradiction
    · exact ⟨_, (Except.error.inj h).symm⟩
  | directory entries => exact ⟨_, (Except.error.inj h).symm⟩

theorem failed_before {α β : Type} {x : Action α} {g : α → β} {s : Store} {failure : Failure}
    (h : ((x >>= fun a => pure (g a)) s).answer = .error failure) :
    (x s).answer = .error failure := by
  cases ha : (x s).answer with
  | error e =>
    rw [after_error ha] at h
    exact congrArg Except.error (Except.error.inj h)
  | ok a =>
    rw [after_ok ha] at h
    contradiction

/-- A request to a store fails because of the files that are there, and for nothing else. -/
theorem perform_fails {request : Request} {s : Store} {failure : Failure}
    (h : (perform request s).answer = .error failure) :
    failure.OfFiles ∨ ∃ path reason, failure = .corruptSnapshot path reason := by
  cases request with
  | save x =>
    rw [perform] at h
    exact .inl (save_sure x s failure (failed_before h))
  | delete key =>
    rw [perform] at h
    have hd := failed_before h
    simp [delete_step] at hd
  | load key =>
    rw [perform] at h
    have hl := failed_before h
    rw [load_answer] at hl
    obtain ⟨_, _, hf⟩ := snapshot_at_error hl
    exact .inr ⟨_, snapshot_in_fails hf⟩
  | loadVersion key v =>
    rw [perform] at h
    have hl := failed_before h
    rw [load_version_answer] at hl
    obtain ⟨_, _, hf⟩ := snapshot_at_error hl
    exact .inr ⟨_, snapshot_in_fails hf⟩
  | versions key =>
    rw [perform] at h
    exact .inl (versions_sure key s failure (failed_before h))
  | keys =>
    rw [perform] at h
    exact .inl (keys_sure s failure (failed_before h))

/-- Whatever the key, its directory has a harmless name and is a child of the store, no request
finds fault with it, and no call on it touches a file outside this directory. -/
theorem no_key_escapes (key : String) :
    Key.Harmless (Key.directoryName key) ∧
    (∀ s : Store, s.directoryOf key = .ok (s.path ++ [Key.directoryName key])) ∧
    (∀ (s : Store) (request : Request) (k : String),
      (perform request s).answer ≠ .error (.invalidKey k)) ∧
    ∀ (r : Registry) (c : Call) (files : FileTree) (base place : Path) (text : String),
      c.target? = some key → ¬base ++ [Key.directoryName key] <+: place →
      ((files.replace base (r.call c ⟨base, files.at? base⟩).store.root).at? place
          = some (.file text) ↔ files.at? place = some (.file text)) := by
  refine ⟨Key.name_harmless key, fun s => directory_of_key s key, fun s request k h => ?_, ?_⟩
  · rcases perform_fails h with hf | ⟨_, _, hf⟩
    · exact hf
    · cases hf
  · intro r c files base place text hc hp
    exact (call_spared r hc _).everywhere hp text

/-- A store in a directory that holds a file, too. -/
def besideNotes : FileTree :=
  .directory [("srv", .directory [("notes.txt", .file "kept"), ("schemas", .directory [])])]

/-- The key that would name the directory of that file is deleted, and a version of it is saved,
inside the store. -/
theorem no_key_escapes_parent :
    Key.directoryName ".." = "_.." ∧
    ∀ c ∈ [Call.store (.delete ".."), Call.store (.save (shopFor ".." 1))],
      (besideNotes.replace ["srv", "schemas"]
        ((Registry.standard "").call c ⟨["srv", "schemas"],
          besideNotes.at? ["srv", "schemas"]⟩).store.root).at? ["srv", "notes.txt"]
        = some (.file "kept") := by
  refine ⟨by decide, fun c hc => ?_⟩
  have ht : c.target? = some ".." := by
    simp only [List.mem_cons, List.not_mem_nil, or_false] at hc
    rcases hc with rfl | rfl <;> rfl
  have hp : ¬["srv", "schemas"] ++ [Key.directoryName ".."] <+: ["srv", "notes.txt"] := by simp
  obtain ⟨_, _, _, hfiles⟩ := no_key_escapes ".."
  exact (hfiles _ c besideNotes _ _ "kept" ht hp).mpr rfl

end Store

end SchemaHistory
