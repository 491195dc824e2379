import SchemaHistory.Proofs.Isolation

namespace SchemaHistory

/-- What can be asked about schemas: a call that goes to the store, or something about documents
alone. -/
inductive Operation where
  | call (c : Call)
  | compare (before after : Json)
  | trackDocuments (documents : List Json) (key : Option String)
  | sdl (options : Sdl.Options) (scope : Registry.Scope) (document : Json)

/-- An operation beside a store, whatever it answers. -/
def Registry.operate (r : Registry) : Operation → Action Unit
  | .call c => r.call c
  | .compare before after => do let _ ← Action.lift (r.compare before after)
  | .trackDocuments documents key => do let _ ← Action.lift (r.trackDocuments documents key)
  | .sdl options scope document => do let _ ← Action.lift (r.sdl options scope document)

/-- The file system refused, for a file in the place of a directory or the other way round. Every
other failure is one of the registry. -/
def Failure.OfFiles : Failure → Prop
  | .unusablePath _ => True
  | _ => False

namespace Action

variable {α β : Type} {s : Store} {x : Action α} {f : α → Action β}

/-- An operation fails only where the file system does. -/
def Sure (x : Action α) : Prop :=
  ∀ s failure, (x s).answer = .error failure → failure.OfFiles

/-- An operation that fails leaves a store as it was, unless the file system fails. -/
def Harmless (x : Action α) (s : Store) : Prop :=
  ∀ failure, (x s).answer = .error failure → ¬ failure.OfFiles → (x s).store = s

theorem refused {failure : Failure} (h : (x s).answer = .error failure) :
    ((x >>= f) s).answer = .error failure := by
  rw [after_error h]

theorem sure_ok (h : ∀ s, ∃ a, (x s).answer = .ok a) : x.Sure := by
  intro s failure hf
  obtain ⟨a, ha⟩ := h s
  exact nomatch ha.symm.trans hf

theorem sure_pure (a : α) : (pure a : Action α).Sure :=
  sure_ok fun _ => ⟨a, rfl⟩

theorem sure_log (level : Log.Level) (message : String) (data : List (String × Json)) :
    (Action.log level message data).Sure :=
  sure_ok fun _ => ⟨(), rfl⟩

theorem sure_read {g : Store → Except Failure α}
    (h : ∀ s failure, g s = .error failure → failure.OfFiles) : (Action.read g).Sure :=
  h

theorem sure_write {g : Store → Except Failure Store}
    (h : ∀ s failure, g s = .error failure → failure.OfFiles) : (Action.write g).Sure := by
  intro s failure hw
  unfold Action.write at hw
  split at hw
  · contradiction
  · rename_i hg
    exact Except.error.inj hw ▸ h s _ hg

theorem sure_bind (hx : x.Sure) (hf : ∀ a, (f a).Sure) : (x >>= f).Sure := by
  intro s failure h
  cases ha : (x s).answer with
  | error e =>
    rw [after_error ha] at h
    exact Except.error.inj h ▸ hx s e ha
  | ok a =>
    rw [after_ok ha] at h
    exact hf a _ failure h

theorem Sure.harmless (h : x.Sure) (s : Store) : x.Harmless s :=
  fun failure ha hn => absurd (h s failure ha) hn

theorem Still.harmless (h : x.Still s) : x.Harmless s :=
  fun _ _ _ => h.1

/-- What only looks at the store before anything is written cannot harm. -/
theorem harmless_bind (hx : x.Still s) (hf : ∀ a, (f a).Harmless s) : (x >>= f).Harmless s := by
  intro failure h hn
  cases ha : (x s).answer with
  | error e =>
    rw [after_error ha]
    exact hx.1
  | ok a =>
    rw [after_ok ha, hx.1] at h ⊢
    exact hf a failure h hn

theorem still_after {a : α} (hx : x.Still s) (ha : (x s).answer = .ok a) (hf : (f a).Still s) :
    (x >>= f).Still s := by
  obtain ⟨hs, hl⟩ := hx
  unfold Still
  rw [after_ok ha, hs, filed_append, hl, List.nil_append]
  exact hf

theorem harmless_dropped (hx : x.Harmless s) (b : β) : (x >>= fun _ => pure b).Harmless s := by
  intro failure h hn
  cases ha : (x s).answer with
  | error e =>
    rw [after_error ha] at h ⊢
    exact hx e ha (Except.error.inj h ▸ hn)
  | ok a =>
    rw [after_ok ha] at h
    contradiction

end Action

namespace Store

open SchemaHistory.Action

theorem entries_sure (s : Store) (path : Path) (failure : Failure)
    (h : s.entries path = .error failure) : failure.OfFiles := by
  unfold entries at h
  split at h
  · contradiction
  · contradiction
  · cases h
    trivial

theorem write_file_sure (directory : Path) (name text : String) (s : Store) (failure : Failure)
    (h : s.writeFile directory name text = .error failure) : failure.OfFiles := by
  unfold writeFile at h
  split at h
  · cases h
    trivial
  · dsimp only at h
    split at h
    · contradiction
    · cases h
      trivial

/-- Once a key has its directory, only the file system can stop a version from being written. -/
theorem put_sure (key : String) (version : Binary64) (content : Json) :
    (put key version content).Sure := by
  unfold put
  refine sure_bind (sure_read fun s failure h => ?_) fun directory => ?_
  · rw [directory_of_key] at h
    contradiction
  refine sure_bind (sure_read fun s failure h => ?_) fun top => ?_
  · cases he : s.entries directory with
    | error e =>
      rw [he] at h
      exact Except.error.inj h ▸ entries_sure s directory e he
    | ok es =>
      rw [he] at h
      contradiction
  refine sure_bind (sure_write (write_file_sure _ _ _)) fun _ => ?_
  split
  · exact sure_bind (sure_write (write_file_sure _ _ _)) fun _ => sure_log _ _ _
  · exact sure_log _ _ _

theorem save_sure (x : Snapshot) : (save x).Sure :=
  put_sure x.key x.version x.toJson

theorem perform_harmless (request : Request) (s : Store) : (perform request).Harmless s := by
  cases request with
  | save x =>
    rw [perform]
    exact harmless_dropped ((save_sure x).harmless s) _
  | delete key =>
    rw [perform]
    refine harmless_dropped (Sure.harmless (sure_ok fun s => ⟨(), ?_⟩) s) _
    rw [delete_step]
  | load key =>
    rw [perform]
    exact Still.harmless (still_bind (still_load key s) fun _ => still_pure _ s)
  | loadVersion key v =>
    rw [perform]
    exact Still.harmless (still_bind (still_load_version key v s) fun _ => still_pure _ s)
  | versions key =>
    rw [perform]
    exact Still.harmless (still_bind (still_versions key s) fun _ => still_pure _ s)
  | keys =>
    rw [perform]
    exact Still.harmless (still_bind (still_keys s) fun _ => still_pure _ s)

end Store

namespace Registry

open SchemaHistory.Action

variable (r : Registry) (s : Store)

theorem keep_sure (key : String) (schema : Introspection.Schema) (version : Binary64) :
    (r.keep key schema version).Sure := by
  unfold keep
  refine sure_bind (Store.save_sure _) fun _ => ?_
  exact sure_bind (sure_log _ _ _) fun _ => sure_pure _

theorem check_harmless (key : String) (document : Json) : (r.check key document).Harmless s := by
  unfold check
  refine harmless_bind (still_lift _ s) fun current => ?_
  refine harmless_bind (Store.still_load key s) fun found => ?_
  cases found with
  | none =>
    refine Sure.harmless ?_ s
    dsimp only
    split
    · exact sure_bind (r.keep_sure _ _ _) fun _ => sure_pure _
    · exact sure_pure _
  | some existing =>
    refine harmless_bind (still_lift _ s) fun previous => Sure.harmless ?_ s
    dsimp only
    split
    · refine sure_bind (r.keep_sure _ _ _) fun _ => ?_
      exact sure_bind (sure_log _ _ _) fun _ => sure_pure _
    · exact sure_bind (sure_log _ _ _) fun _ => sure_pure _

theorem snapshot_harmless (key : String) (document : Json) (version : Option Binary64) :
    (r.snapshot key document version).Harmless s := by
  unfold snapshot
  refine harmless_bind (still_lift _ s) fun current => ?_
  refine harmless_bind (Store.still_load key s) fun found => ?_
  cases version with
  | some version => cases found <;> exact (r.keep_sure _ _ _).harmless s
  | none =>
    cases found with
    | none => exact (r.keep_sure _ _ _).harmless s
    | some existing =>
      refine harmless_bind (still_lift _ s) fun previous => Sure.harmless ?_ s
      split
      · exact sure_bind (sure_log _ _ _) fun _ => sure_pure _
      · exact r.keep_sure _ _ _

/-- The registry refuses before anything is written. -/
theorem operate_harmless (op : Operation) : (r.operate op).Harmless s := by
  cases op with
  | call c =>
    cases c with
    | check key document => exact harmless_dropped (r.check_harmless s key document) ()
    | snapshot key document version =>
      exact harmless_dropped (r.snapshot_harmless s key document version) ()
    | diff key a b => exact harmless_dropped (r.still_diff s key a b).harmless ()
    | track key => exact harmless_dropped (r.still_track s key).harmless ()
    | store request => exact harmless_dropped (Store.perform_harmless request s) ()
  | compare before after => exact harmless_dropped (still_lift _ s).harmless ()
  | trackDocuments documents key => exact harmless_dropped (still_lift _ s).harmless ()
  | sdl options scope document => exact harmless_dropped (still_lift _ s).harmless ()

/-- A document has no changes from a snapshot. -/
def Unchanged (existing : Snapshot) (document : Json) : Prop :=
  ∃ current previous, ReadDocument.ofJson document = .ok current ∧
    Model.ofSchema existing.schema = .ok previous ∧ previous.changes r.policy current.model = []

/-- What does not mean to write: all but saving, deleting, a check and a new version, and these two
only where there is a latest version that is not to be replaced. -/
def Reads : Operation → Prop
  | .call (.check key document) => ∃ existing, (Store.load key s).answer = .ok (some existing) ∧
      (r.autoUpdate = false ∨ r.Unchanged existing document)
  | .call (.snapshot key document version) => version = none ∧ ∃ existing,
      (Store.load key s).answer = .ok (some existing) ∧ r.Unchanged existing document
  | .call (.store (.save _)) => False
  | .call (.store (.delete _)) => False
  | _ => True

variable {r s} {key : String} {document : Json} {existing : Snapshot}

theorem not_due (hl : (Store.load key s).answer = .ok (some existing))
    (hu : r.Unchanged existing document) {current : ReadDocument}
    (hr : ReadDocument.ofJson document = .ok current) {version : Binary64} :
    ¬ r.Due s key current.model version := by
  obtain ⟨current', previous, hr', hb, hc⟩ := hu
  obtain rfl := Except.ok.inj (hr'.symm.trans hr)
  intro hd
  cases hd with
  | first h => exact nomatch h.symm.trans hl
  | next h hb' hc' =>
    obtain rfl := Option.some.inj (Except.ok.inj (h.symm.trans hl))
    obtain rfl := Except.ok.inj (hb'.symm.trans hb)
    exact hc' hc

theorem check_unchanged (hl : (Store.load key s).answer = .ok (some existing))
    (hu : r.Unchanged existing document) : (r.check key document).Still s := by
  rcases r.check_writes s key document with h | ⟨y, hy, _⟩
  · exact h
  · cases hy with
    | checked hr hd => exact absurd hd (not_due hl hu hr)

theorem snapshot_unchanged (hl : (Store.load key s).answer = .ok (some existing))
    (hu : r.Unchanged existing document) : (r.snapshot key document none).Still s := by
  rcases r.snapshot_writes s key document none with h | ⟨y, hy, _⟩
  · exact h
  · cases hy with
    | due hr hd => exact absurd hd (not_due hl hu hr)

/-- Where it is not to update, a check that finds a version writes nothing. -/
theorem check_kept (ha : r.autoUpdate = false)
    (hl : (Store.load key s).answer = .ok (some existing)) : (r.check key document).Still s := by
  unfold check
  refine still_bind (still_lift _ s) fun current => ?_
  refine still_after (Store.still_load key s) hl ?_
  refine still_bind (still_lift _ s) fun previous => ?_
  dsimp only
  rw [ha, Bool.false_and, if_neg Bool.false_ne_true]
  exact still_bind (still_log _ (by decide) _ s) fun _ => still_pure _ s

/-- What only reads leaves the store as it was. -/
theorem operate_reads {op : Operation} (h : r.Reads s op) : (r.operate op).Still s := by
  cases op with
  | call c =>
    cases c with
    | check key document =>
      obtain ⟨existing, hl, ha | hu⟩ := h
      · exact still_bind (check_kept ha hl) fun _ => still_pure _ s
      · exact still_bind (check_unchanged hl hu) fun _ => still_pure _ s
    | snapshot key document version =>
      obtain ⟨rfl, existing, hl, hu⟩ := h
      exact still_bind (snapshot_unchanged hl hu) fun _ => still_pure _ s
    | diff key a b => exact still_bind (r.still_diff s key a b) fun _ => still_pure _ s
    | track key => exact still_bind (r.still_track s key) fun _ => still_pure _ s
    | store request =>
      refine still_bind ?_ fun _ => still_pure _ s
      rcases Store.perform_writes request s with (hs | ⟨x, rfl, _⟩) | ⟨key, rfl⟩
      · exact hs
      · exact h.elim
      · exact h.elim
  | compare before after => exact still_bind (still_lift _ s) fun _ => still_pure _ s
  | trackDocuments documents key => exact still_bind (still_lift _ s) fun _ => still_pure _ s
  | sdl options scope document => exact still_bind (still_lift _ s) fun _ => still_pure _ s

end Registry

namespace Store

/-- Whatever stands in the store, an operation that the registry refuses, at whatever point, leaves
it as it was, and so does one that only reads. -/
theorem refused_or_read_unchanged (s : Store) (r : Registry) (op : Operation) :
    (∀ failure, (r.operate op s).answer = .error failure → ¬ failure.OfFiles →
      (r.operate op s).store = s) ∧
    (r.Reads s op → (r.operate op s).store = s) :=
  ⟨r.operate_harmless s op, fun h => (Registry.operate_reads h).1⟩

/-- A store where the latest version of a key cannot be read. -/
def broken : Store :=
  ⟨["srv"], some (.directory [("shop", .directory [(latestFile, .directory [])])])⟩

theorem load_broken : (load "shop" broken).answer = .error (.corruptSnapshot
    "/srv/shop/latest.json" "EISDIR: illegal operation on a directory, read") := by
  have hd : Key.directoryName "shop" = "shop" := by decide
  have hat := at_file broken (Key.directoryName "shop") latestFile
  rw [hd] at hat
  unfold load
  simp only [Action.read, directory_of_key, hd]
  change snapshotAt? broken (broken.path ++ ["shop"] ++ [latestFile]) = _
  rw [snapshotAt?, hat]
  rfl

/-- A new version is refused where the latest one cannot be read, and a track only reads. -/
theorem refused_or_read_broken : ∃ failure,
    ((Registry.standard "").operate
      (.call (.snapshot "shop" (Introspection.sizeDocument "Int") none)) broken).answer
        = .error failure ∧ ¬ failure.OfFiles ∧
    ((Registry.standard "").operate
      (.call (.snapshot "shop" (Introspection.sizeDocument "Int") none)) broken).store = broken ∧
    ((Registry.standard "").operate (.call (.track "shop")) broken).store = broken := by
  have hr : (Action.lift (ReadDocument.ofJson (Introspection.sizeDocument "Int"))
      broken).answer = .ok _ := ReadDocument.of_size_document rfl
  obtain ⟨failure, hl, hn⟩ : ∃ failure, (load "shop" broken).answer = .error failure ∧
      ¬ failure.OfFiles := ⟨_, load_broken, id⟩
  have hs : ((Registry.standard "").snapshot "shop" (Introspection.sizeDocument "Int") none
      broken).answer = .error failure := by
    unfold Registry.snapshot
    rw [Action.after_ok hr]
    exact Action.refused hl
  have ha : ((Registry.standard "").operate
      (.call (.snapshot "shop" (Introspection.sizeDocument "Int") none)) broken).answer
        = .error failure := Action.refused hs
  refine ⟨failure, ha, hn, ?_, ?_⟩
  · exact (refused_or_read_unchanged broken _ _).1 failure ha hn
  · exact (refused_or_read_unchanged broken _ (.call (.track "shop"))).2 trivial

end Store

end SchemaHistory
