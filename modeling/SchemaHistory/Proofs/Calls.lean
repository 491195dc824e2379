import SchemaHistory.Proofs.Archive
import SchemaHistory.Registry

namespace SchemaHistory

/-- What is asked of a registry, or of its store beside it. -/
inductive Call where
  | check (key : String) (document : Json)
  | snapshot (key : String) (document : Json) (version : Option Binary64)
  | diff (key : String) (a b : Binary64)
  | track (key : String)
  | store (request : Request)

/-- A call, whatever it answers. -/
def Registry.call (r : Registry) : Call → Action Unit
  | .check key document => do let _ ← r.check key document
  | .snapshot key document version => do let _ ← r.snapshot key document version
  | .diff key a b => do let _ ← r.diff key a b
  | .track key => do let _ ← r.track key
  | .store request => do let _ ← Store.perform request

/-- The store after some calls, each with its own settings. A call that fails does not end the
run. -/
def Store.run (s : Store) (calls : List (Registry × Call)) : Store :=
  calls.foldl (fun s c => (c.1.call c.2 s).store) s

/-- The versions that a log reports as written, with their keys. -/
def Log.filed (entries : List Log.Entry) : List (String × Binary64) :=
  entries.filterMap fun e =>
    if e.message = "Snapshot written" then
      match e.data with
      | ("key", .string key) :: ("version", .number version) :: _ => some (key, version)
      | _ => none
    else none

namespace Action

variable {α β : Type} {s : Store} {x : Action α} {f : α → Action β}

/-- An operation writes nothing in a store. -/
def Still (x : Action α) (s : Store) : Prop :=
  (x s).store = s ∧ Log.filed (x s).log = []

/-- An operation writes a snapshot in a store, and does nothing else to it. -/
def Saves (x : Action α) (s : Store) (y : Snapshot) : Prop :=
  (x s).store = (Store.save y s).store ∧ Log.filed (x s).log = Log.filed (Store.save y s).log

/-- An operation writes nothing, or one of the given snapshots and nothing else. -/
def Writes (x : Action α) (s : Store) (p : Snapshot → Prop) : Prop :=
  x.Still s ∨ ∃ y, p y ∧ x.Saves s y

theorem after_error {failure : Failure} (h : (x s).answer = .error failure) :
    (x >>= f) s = ⟨(x s).store, (x s).log, .error failure⟩ := by
  simp only [bind, h]

theorem after_ok {a : α} (h : (x s).answer = .ok a) :
    (x >>= f) s = ⟨(f a (x s).store).store, (x s).log ++ (f a (x s).store).log,
      (f a (x s).store).answer⟩ := by
  simp only [bind, h]

theorem filed_append (es fs : List Log.Entry) :
    Log.filed (es ++ fs) = Log.filed es ++ Log.filed fs :=
  List.filterMap_append

theorem filed_bind {b : β} (h : ((x >>= f) s).answer = .ok b) :
    ∃ a, (x s).answer = .ok a ∧ (f a (x s).store).answer = .ok b ∧
      Log.filed ((x >>= f) s).log = Log.filed (x s).log ++ Log.filed (f a (x s).store).log := by
  cases ha : (x s).answer with
  | error failure =>
    rw [after_error ha] at h
    contradiction
  | ok a =>
    rw [after_ok ha] at h ⊢
    exact ⟨a, rfl, h, filed_append _ _⟩

/-- Operations one after the other succeed one after the other. -/
theorem given_bind {s' : Store} {b : β} (h : (x >>= f).Gives s s' b) :
    ∃ t a, x.Gives s t a ∧ (f a).Gives t s' b := by
  obtain ⟨hs, hb⟩ := h
  obtain ⟨a, ha, hb, _⟩ := filed_bind hb
  rw [after_ok ha] at hs
  exact ⟨_, a, ⟨rfl, ha⟩, hs, hb⟩

theorem given_read {s' : Store} {g : Store → Except Failure α} {a : α}
    (h : (Action.read g).Gives s s' a) : s = s' ∧ g s = .ok a :=
  h

theorem given_write {s' : Store} {g : Store → Except Failure Store}
    (h : (Action.write g).Gives s s' ()) : g s = .ok s' := by
  obtain ⟨hs, ha⟩ := h
  unfold Action.write at hs ha
  cases hg : g s with
  | ok t =>
    rw [hg] at hs
    exact congrArg Except.ok hs
  | error failure =>
    rw [hg] at ha
    contradiction

theorem filed_write (g : Store → Except Failure Store) (s : Store) :
    Log.filed (Action.write g s).log = [] := by
  unfold Action.write
  split <;> rfl

theorem still_pure (a : α) (s : Store) : (pure a : Action α).Still s :=
  ⟨rfl, rfl⟩

theorem still_lift (answer : Except Failure α) (s : Store) : (Action.lift answer).Still s :=
  ⟨rfl, rfl⟩

theorem still_read (g : Store → Except Failure α) (s : Store) : (Action.read g).Still s :=
  ⟨rfl, rfl⟩

theorem still_log (level : Log.Level) {message : String} (h : message ≠ "Snapshot written")
    (data : List (String × Json)) (s : Store) : (Action.log level message data).Still s := by
  refine ⟨rfl, ?_⟩
  simp [Action.log, Log.filed, h]

theorem still_bind (hx : x.Still s) (hf : ∀ a, (f a).Still s) : (x >>= f).Still s := by
  obtain ⟨hs, hl⟩ := hx
  unfold Still
  cases ha : (x s).answer with
  | error failure =>
    rw [after_error ha]
    exact ⟨hs, hl⟩
  | ok a =>
    rw [after_ok ha, hs]
    exact ⟨(hf a).1, by rw [filed_append, hl, (hf a).2, List.append_nil]⟩

theorem saves_bind {y : Snapshot} (hx : x.Saves s y) (hf : ∀ a s', (f a).Still s') :
    (x >>= f).Saves s y := by
  obtain ⟨hs, hl⟩ := hx
  unfold Saves
  cases ha : (x s).answer with
  | error failure =>
    rw [after_error ha]
    exact ⟨hs, hl⟩
  | ok a =>
    obtain ⟨hs', hl'⟩ := hf a (x s).store
    rw [after_ok ha]
    exact ⟨hs'.trans hs, by rw [filed_append, hl', List.append_nil, hl]⟩

/-- After an operation that writes nothing, all depends on its answer. -/
theorem writes_bind {p : Snapshot → Prop} (hx : x.Still s)
    (hf : ∀ a, (x s).answer = .ok a → (f a).Writes s p) : (x >>= f).Writes s p := by
  obtain ⟨hs, hl⟩ := hx
  unfold Writes Still Saves
  cases ha : (x s).answer with
  | error failure =>
    rw [after_error ha]
    exact .inl ⟨hs, hl⟩
  | ok a =>
    rw [after_ok ha, hs, filed_append, hl, List.nil_append]
    exact hf a ha

/-- What comes after an operation that writes nothing is all that is written. -/
theorem still_ok {b : β} (hx : x.Still s) (h : ((x >>= f) s).answer = .ok b) :
    ∃ a, (x s).answer = .ok a ∧ (f a s).answer = .ok b ∧
      Log.filed ((x >>= f) s).log = Log.filed (f a s).log := by
  obtain ⟨hs, hl⟩ := hx
  obtain ⟨a, ha, hb, hf⟩ := filed_bind h
  rw [hs] at hb
  rw [hl, hs, List.nil_append] at hf
  exact ⟨a, ha, hb, hf⟩

theorem saves_after {y : Snapshot} {a : α} (hx : x.Still s) (ha : (x s).answer = .ok a)
    (hf : (f a).Saves s y) : (x >>= f).Saves s y := by
  obtain ⟨hs, hl⟩ := hx
  unfold Saves
  rw [after_ok ha, hs, filed_append, hl, List.nil_append]
  exact hf

theorem writes_mono {p q : Snapshot → Prop} (hx : x.Writes s p) (h : ∀ y, p y → q y) :
    x.Writes s q := by
  rcases hx with hx | ⟨y, hy, hx⟩
  · exact .inl hx
  · exact .inr ⟨y, h y hy, hx⟩

theorem writes_dropped {p : Snapshot → Prop} (hx : x.Writes s p) (b : β) :
    (x >>= fun _ => pure b).Writes s p := by
  rcases hx with hx | ⟨y, hy, hx⟩
  · exact .inl (still_bind hx fun _ => still_pure b s)
  · exact .inr ⟨y, hy, saves_bind hx fun _ s' => still_pure b s'⟩

end Action

namespace Store

open SchemaHistory.Action

theorem still_load (key : String) (s : Store) : (load key).Still s := by
  unfold load
  exact still_read _ s

theorem still_load_version (key : String) (v : Binary64) (s : Store) :
    (loadVersion key v).Still s := by
  unfold loadVersion
  exact still_read _ s

theorem still_read_versions (directory : Path) (files : FileTree.Entries) (s : Store) :
    (readVersions directory files).Still s := by
  induction files with
  | nil => exact still_pure [] s
  | cons e files ih =>
    rw [readVersions]
    split
    · exact still_bind ih fun xs => still_pure _ s
    · exact still_bind (still_log _ (by decide) _ s) fun _ => ih

theorem still_read_keys (path : Path) (files : FileTree.Entries) (s : Store) :
    (readKeys path files).Still s := by
  induction files with
  | nil => exact still_pure [] s
  | cons e files ih =>
    rw [readKeys]
    split
    · exact ih
    · split
      · exact still_bind ih fun ks => still_pure _ s
      · refine still_bind (still_log _ (by decide) _ s) fun _ => ?_
        exact still_bind ih fun ks => still_pure _ s

theorem still_versions (key : String) (s : Store) : (versions key).Still s := by
  unfold versions
  refine still_bind (still_read _ s) fun directory => still_bind (still_read _ s) fun files => ?_
  exact still_bind (still_read_versions _ _ s) fun _ => still_pure _ s

theorem still_keys (s : Store) : keys.Still s := by
  unfold keys
  refine still_bind (still_read _ s) fun path => still_bind (still_read _ s) fun files => ?_
  exact still_bind (still_read_keys _ _ s) fun _ => still_pure _ s

theorem gives_load {key : String} {s : Store} {found : Option Snapshot}
    (h : (load key s).answer = .ok found) : (load key).Gives s s found :=
  ⟨(still_load key s).1, h⟩

theorem gives_load_version {key : String} {v : Binary64} {s : Store} {found : Option Snapshot}
    (h : (loadVersion key v s).answer = .ok found) : (loadVersion key v).Gives s s found :=
  ⟨(still_load_version key v s).1, h⟩

/-- What is written is what the log reports. -/
theorem filed_put {key : String} {version : Binary64} {content : Json} {s : Store}
    (h : (put key version content s).answer = .ok ()) :
    Log.filed (put key version content s).log = [(key, version)] := by
  unfold put at h ⊢
  obtain ⟨directory, _, h, h1⟩ := filed_bind h
  obtain ⟨top, _, h, h2⟩ := filed_bind h
  obtain ⟨_, _, h, h3⟩ := filed_bind h
  rw [h1, h2, h3, filed_write]
  by_cases hle : top ≤ version
  · rw [if_pos hle] at h ⊢
    obtain ⟨_, _, h, h4⟩ := filed_bind h
    rw [h4, filed_write]
    rfl
  · rw [if_neg hle]
    rfl

theorem delete_step (key : String) (s : Store) :
    delete key s = ⟨s.clear (s.path ++ [Key.directoryName key]), [], .ok ()⟩ := by
  unfold delete
  simp only [bind, Action.read, directory_of_key]
  rfl

/-- A request writes nothing or the snapshot that it is for, unless it deletes a key. -/
theorem perform_writes (request : Request) (s : Store) :
    (perform request).Writes s (fun x => request = .save x) ∨ ∃ key, request = .delete key := by
  cases request with
  | save x =>
    rw [perform]
    exact .inl (.inr ⟨x, rfl, saves_bind ⟨rfl, rfl⟩ fun _ s' => still_pure _ s'⟩)
  | delete key => exact .inr ⟨key, rfl⟩
  | load key =>
    rw [perform]
    exact .inl (.inl (still_bind (still_load key s) fun _ => still_pure _ s))
  | loadVersion key v =>
    rw [perform]
    exact .inl (.inl (still_bind (still_load_version key v s) fun _ => still_pure _ s))
  | versions key =>
    rw [perform]
    exact .inl (.inl (still_bind (still_versions key s) fun _ => still_pure _ s))
  | keys =>
    rw [perform]
    exact .inl (.inl (still_bind (still_keys s) fun _ => still_pure _ s))

end Store

namespace Registry

open SchemaHistory.Action

/-- The number that a document is due to get as the next version of a key: one if it is the first,
and one more than the latest if it differs from it. -/
inductive Due (r : Registry) (s : Store) (key : String) (model : Model) : Binary64 → Prop where
  | first (h : (Store.load key s).answer = .ok none) : Due r s key model 1
  | next {existing : Snapshot} {previous : Model}
      (h : (Store.load key s).answer = .ok (some existing))
      (hb : Model.ofSchema existing.schema = .ok previous)
      (hc : previous.changes r.policy model ≠ []) : Due r s key model (existing.version + 1)

/-- The snapshots that a call may write. -/
inductive Files (r : Registry) (s : Store) : Call → Snapshot → Prop where
  | checked {key : String} {document : Json} {current : ReadDocument} {version : Binary64}
      (hr : ReadDocument.ofJson document = .ok current)
      (hd : r.Due s key current.model version) :
      Files r s (.check key document) ⟨key, current.schema, r.now, version, some r.metadata⟩
  | due {key : String} {document : Json} {current : ReadDocument} {version : Binary64}
      (hr : ReadDocument.ofJson document = .ok current)
      (hd : r.Due s key current.model version) :
      Files r s (.snapshot key document none)
        ⟨key, current.schema, r.now, version, some r.metadata⟩
  | forced {key : String} {document : Json} {current : ReadDocument} {version : Binary64}
      (hr : ReadDocument.ofJson document = .ok current) :
      Files r s (.snapshot key document (some version))
        ⟨key, current.schema, r.now, version, some r.metadata⟩
  | saved (x : Snapshot) : Files r s (.store (.save x)) x

section

variable (r : Registry) (s : Store)

theorem keep_saves (key : String) (schema : Introspection.Schema) (version : Binary64) :
    (r.keep key schema version).Saves s ⟨key, schema, r.now, version, some r.metadata⟩ := by
  unfold keep
  refine saves_bind ⟨rfl, rfl⟩ fun _ s' => ?_
  exact still_bind (still_log _ (by decide) _ s') fun _ => still_pure _ s'

theorem check_writes (key : String) (document : Json) :
    (r.check key document).Writes s (r.Files s (.check key document)) := by
  unfold check
  refine writes_bind (still_lift _ s) fun current hr => ?_
  refine writes_bind (Store.still_load key s) fun found hl => ?_
  cases found with
  | none =>
    dsimp only
    split
    · refine .inr ⟨_, .checked hr (.first hl), ?_⟩
      exact saves_bind (r.keep_saves s _ _ _) fun _ s' => still_pure _ s'
    · exact .inl (still_pure _ s)
  | some existing =>
    refine writes_bind (still_lift _ s) fun previous hb => ?_
    dsimp only
    split
    · rename_i hu
      rw [Bool.and_eq_true, Bool.not_eq_true'] at hu
      refine .inr ⟨_, .checked hr (.next hl hb (by simpa using hu.2)), ?_⟩
      rw [if_neg (by simp [hu.2])]
      refine saves_bind (r.keep_saves s _ _ _) fun _ s' => ?_
      exact still_bind (still_log _ (by decide) _ s') fun _ => still_pure _ s'
    · exact .inl (still_bind (still_log _ (by decide) _ s) fun _ => still_pure _ s)

theorem snapshot_writes (key : String) (document : Json) (version : Option Binary64) :
    (r.snapshot key document version).Writes s (r.Files s (.snapshot key document version)) := by
  unfold snapshot
  refine writes_bind (still_lift _ s) fun current hr => ?_
  refine writes_bind (Store.still_load key s) fun found hl => ?_
  cases version with
  | some version =>
    have hs := r.keep_saves s key current.schema version
    cases found <;> exact .inr ⟨_, .forced hr, hs⟩
  | none =>
    cases found with
    | none => exact .inr ⟨_, .due hr (.first hl), r.keep_saves s _ _ _⟩
    | some existing =>
      refine writes_bind (still_lift _ s) fun previous hb => ?_
      split
      · exact .inl (still_bind (still_log _ (by decide) _ s) fun _ => still_pure _ s)
      · rename_i hc
        exact .inr ⟨_, .due hr (.next hl hb (by simpa using hc)), r.keep_saves s _ _ _⟩

theorem at_least_minor (changes : List Change) : Change.atLeast .minor changes = changes :=
  List.filter_eq_self.mpr fun c _ => decide_eq_true (Nat.zero_le c.severity.rank)

/-- Two versions that are there are compared as the models that they are built into. -/
theorem diff_given {key : String} {a b : Binary64} {x y : Snapshot} {before after : Model}
    (hx : (Store.loadVersion key a).Gives s s (some x)) (hb : Model.ofSchema x.schema = .ok before)
    (hy : (Store.loadVersion key b).Gives s s (some y)) (ha : Model.ofSchema y.schema = .ok after) :
    (r.diff key a b).Gives s s (r.report key a b (before.changes r.policy after)) := by
  unfold diff
  refine gives_bind hx (gives_bind hy ⟨rfl, ?_⟩)
  refine bind_ok.mpr ⟨x, rfl, bind_ok.mpr ⟨y, rfl, ?_⟩⟩
  exact bind_ok.mpr ⟨before, hb, bind_ok.mpr ⟨after, ha, rfl⟩⟩

theorem still_diff (key : String) (a b : Binary64) : (r.diff key a b).Still s := by
  unfold diff
  refine still_bind (Store.still_load_version key a s) fun before => ?_
  exact still_bind (Store.still_load_version key b s) fun after => still_lift _ s

theorem still_track (key : String) : (r.track key).Still s := by
  unfold track
  exact still_bind (Store.still_versions key s) fun snapshots => still_lift _ s

section

variable {key : String} {document : Json} {current : ReadDocument} {version : Binary64}

/-- What is due is kept when no version is given. -/
theorem call_due (hr : ReadDocument.ofJson document = .ok current)
    (hd : r.Due s key current.model version) :
    (r.call (.snapshot key document none)).Saves s
      ⟨key, current.schema, r.now, version, some r.metadata⟩ := by
  refine saves_bind ?_ fun _ s' => still_pure () s'
  unfold snapshot
  refine saves_after (still_lift _ s) hr ?_
  cases hd with
  | first hl => exact saves_after (Store.still_load key s) hl (r.keep_saves s _ _ _)
  | next hl hb hc =>
    refine saves_after (Store.still_load key s) hl (saves_after (still_lift _ s) hb ?_)
    rw [if_neg (by simpa using hc)]
    exact r.keep_saves s _ _ _

/-- A version that is given is kept, whatever is there. -/
theorem call_forced {found : Option Snapshot} (hr : ReadDocument.ofJson document = .ok current)
    (hl : (Store.load key s).answer = .ok found) :
    (r.call (.snapshot key document (some version))).Saves s
      ⟨key, current.schema, r.now, version, some r.metadata⟩ := by
  refine saves_bind ?_ fun _ s' => still_pure () s'
  unfold snapshot
  refine saves_after (still_lift _ s) hr (saves_after (Store.still_load key s) hl ?_)
  cases found <;> exact r.keep_saves s _ _ _

end

theorem call_delete (key : String) : r.call (.store (.delete key)) s
    = ⟨s.clear (s.path ++ [Key.directoryName key]), [], .ok ()⟩ := by
  have hd : (Store.delete key s).answer = .ok () := by rw [Store.delete_step]
  have hp : Store.perform (.delete key) s
      = ⟨s.clear (s.path ++ [Key.directoryName key]), [], .ok .done⟩ := by
    rw [Store.perform, after_ok hd, Store.delete_step]
    rfl
  have ha : (Store.perform (.delete key) s).answer = .ok .done := by rw [hp]
  rw [call, after_ok ha, hp]
  rfl

/-- A call writes nothing or one snapshot, unless it deletes a key. -/
theorem call_writes (c : Call) : (r.call c).Writes s (r.Files s c) ∨
    ∃ key, c = .store (.delete key) ∧
      (r.call c s).store = s.clear (s.path ++ [Key.directoryName key]) ∧
      Log.filed (r.call c s).log = [] := by
  cases c with
  | check key document => exact .inl (writes_dropped (r.check_writes s key document) ())
  | snapshot key document version =>
    exact .inl (writes_dropped (r.snapshot_writes s key document version) ())
  | diff key a b => exact .inl (writes_dropped (.inl (r.still_diff s key a b)) ())
  | track key => exact .inl (writes_dropped (.inl (r.still_track s key)) ())
  | store request =>
    rcases Store.perform_writes request s with hw | ⟨key, hk⟩
    · refine .inl (writes_dropped (writes_mono hw fun x hx => ?_) ())
      rw [hx]
      exact .saved x
    · subst hk
      rw [r.call_delete s key]
      exact .inr ⟨key, rfl, rfl, rfl⟩

end

end Registry

end SchemaHistory
