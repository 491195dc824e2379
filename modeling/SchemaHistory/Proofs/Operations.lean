import SchemaHistory.Proofs.Shelves

namespace SchemaHistory

namespace Action

variable {α β : Type} {s s' s'' : Store} {a : α} {b : β}

/-- An operation succeeds with an answer and leaves a store behind. -/
def Gives (x : Action α) (s s' : Store) (a : α) : Prop :=
  (x s).store = s' ∧ (x s).answer = .ok a

theorem gives_pure (a : α) (s : Store) : (pure a : Action α).Gives s s a :=
  ⟨rfl, rfl⟩

theorem gives_bind {x : Action α} {f : α → Action β} (hx : x.Gives s s' a)
    (hf : (f a).Gives s' s'' b) : (x >>= f).Gives s s'' b := by
  obtain ⟨rfl, ha⟩ := hx
  obtain ⟨rfl, hb⟩ := hf
  constructor
  · simp only [bind, ha]
  · simp only [bind, ha, hb]

theorem gives_read {f : Store → Except Failure α} (h : f s = .ok a) :
    (Action.read f).Gives s s a :=
  ⟨rfl, h⟩

theorem gives_write {f : Store → Except Failure Store} (h : f s = .ok s') :
    (Action.write f).Gives s s' () := by
  unfold Gives write
  rw [h]
  exact ⟨rfl, rfl⟩

theorem gives_log (level : Log.Level) (message : String) (data : List (String × Json))
    (s : Store) : (Action.log level message data).Gives s s () :=
  ⟨rfl, rfl⟩

end Action

namespace Store

open SchemaHistory.Action Binary64 FileTree

/-- The highest version, if there is any. -/
def IsLatest (versions : Versions) : Option Snapshot → Prop
  | none => ∀ v, versions v = none
  | some s => ∃ v, Highest versions v s

section

variable {s : Store} {key : String} {versions : Versions} {entries : Entries}

theorem snapshot_of_text {path : Path} {text : String} {x : Snapshot}
    (hat : s.at? path = some (.file text)) (hp : Snapshot.parse text = .ok x) :
    s.snapshotAt? path = .ok (some x) := by
  rw [snapshotAt?, hat]
  simp only [snapshotIn, hp]
  rfl

theorem snapshot_held {path : Path} {name : String} {x : Snapshot}
    (hat : s.at? path = entries.lookup name) (hx : Holds entries name x) :
    s.snapshotAt? path = .ok (some x) := by
  obtain ⟨text, ht, hp⟩ := hx
  exact snapshot_of_text (hat.trans ht) hp

theorem snapshot_missing {path : Path} (hat : s.at? path = none) :
    s.snapshotAt? path = .ok none := by
  rw [snapshotAt?, hat]

/-- Loading answers with the highest version. -/
theorem load_given (hv : s.Shows (Key.directoryName key) entries)
    (h : Stock key versions entries) :
    ∃ found, (load key).Gives s s found ∧ IsLatest versions found := by
  have hat := file_shown hv latestFile
  rcases h with h | ⟨rfl, hn⟩
  · obtain ⟨v, x, hx, hl⟩ := h.latest
    refine ⟨some x, gives_read ?_, v, hx⟩
    rw [directory_of_key]
    exact snapshot_held hat hl
  · refine ⟨none, gives_read ?_, hn⟩
    rw [directory_of_key]
    exact snapshot_missing hat

/-- Loading a version answers with that version, whatever number is asked for. -/
theorem load_version_given (hv : s.Shows (Key.directoryName key) entries)
    (h : Stock key versions entries) (v : Binary64) :
    (loadVersion key v).Gives s s (versions v) := by
  have hat := file_shown hv (versionFile v)
  refine gives_read ?_
  rw [directory_of_key]
  cases hx : versions v with
  | some x => exact snapshot_held hat (stock_held h hx)
  | none =>
    refine snapshot_missing (hat.trans ?_)
    cases hl : entries.lookup (versionFile v) with
    | none => rfl
    | some t =>
      rcases stock_files h hl with he | ⟨w, hw, he⟩
      · exact absurd he (latest_not_version v)
      · rw [version_file_injective he] at hx
        exact absurd hx hw

/-- Writing a version files it under its key and changes nothing else. -/
theorem put_given (hp : s.Plain) (ho : Ordered s.top)
    (hv : s.Shows (Key.directoryName key) entries)
    (hf : ∀ f es, entries.lookup f ≠ some (.directory es)) (version : Binary64) (content : Json) :
    ∃ s', (Store.put key version content).Gives s s' () ∧ Changed s s' (Key.directoryName key)
      (some (.directory (filed entries version content.pretty))) := by
  obtain ⟨s₁, hw₁, hc₁⟩ := write_shown hp ho hv (hf (versionFile version)) content.pretty
  have hh : (s.entries (s.path ++ [Key.directoryName key])).map highest
      = .ok (highest entries) := by
    rw [entries_shown hv]
    rfl
  have hl : ∀ es, (FileTree.put (versionFile version) (.file content.pretty) entries).lookup
      latestFile ≠ some (.directory es) := by
    intro es
    rw [lookup_put, if_neg (Ne.symm (latest_not_version version))]
    exact hf latestFile es
  by_cases hle : highest entries ≤ version
  · obtain ⟨s₂, hw₂, hc₂⟩ := write_shown hc₁.plain hc₁.ordered hc₁.shows hl content.pretty
    rw [hc₁.path] at hw₂
    refine ⟨s₂, ?_, ?_⟩
    · unfold Store.put
      refine gives_bind (gives_read (directory_of_key s key)) (gives_bind (gives_read hh)
        (gives_bind (gives_write hw₁) ?_))
      rw [if_pos hle]
      exact gives_bind (gives_write hw₂) (gives_log _ _ _ s₂)
    · rw [filed, if_pos hle]
      exact hc₁.trans hc₂
  · refine ⟨s₁, ?_, ?_⟩
    · unfold Store.put
      refine gives_bind (gives_read (directory_of_key s key)) (gives_bind (gives_read hh)
        (gives_bind (gives_write hw₁) ?_))
      rw [if_neg hle]
      exact gives_log _ _ _ s₁
    · rw [filed, if_neg hle]
      exact hc₁

theorem delete_given (hp : s.Plain) (ho : Ordered s.top) (key : String) :
    ∃ s', (delete key).Gives s s' () ∧ Changed s s' (Key.directoryName key) none := by
  refine ⟨_, ?_, clear_shown hp ho _⟩
  unfold delete
  exact gives_bind (gives_read (directory_of_key s key)) (gives_write rfl)

end

end Store

end SchemaHistory
