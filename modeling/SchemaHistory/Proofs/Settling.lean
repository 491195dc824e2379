import SchemaHistory.Proofs.Comparisons
import SchemaHistory.Proofs.History
import SchemaHistory.Proofs.Latest

namespace SchemaHistory

namespace Action

variable {α β : Type} {s : Store} {x : Action α} {f : α → Action β}

/-- What comes after an operation that writes nothing decides what is left of the store. -/
theorem still_result {b : β} (hx : x.Still s) (h : ((x >>= f) s).answer = .ok b) :
    ∃ a, (x s).answer = .ok a ∧ (f a s).answer = .ok b ∧ ((x >>= f) s).store = (f a s).store := by
  obtain ⟨a, ha, hb, _⟩ := still_ok hx h
  refine ⟨a, ha, hb, ?_⟩
  rw [after_ok ha, hx.1]

end Action

namespace Registry

open SchemaHistory.Action

variable {r : Registry} {s : Store} {key : String} {document : Json}

/-- What an operation on a key has done with a document: the latest version has no changes and was
left as it is, or the document was kept as a new version. The number is that of the version which
is the latest now. -/
inductive Settles (r : Registry) (s : Store) (key : String) (document : Json) (s' : Store) :
    Binary64 → Prop where
  | unchanged {existing : Snapshot} {previous : Model} {current : ReadDocument}
      (hr : ReadDocument.ofJson document = .ok current)
      (hl : (Store.load key s).answer = .ok (some existing))
      (hb : Model.ofSchema existing.schema = .ok previous)
      (hc : previous.changes r.policy current.model = []) (hs : s' = s) :
      Settles r s key document s' existing.version
  | kept {current : ReadDocument} {v : Binary64}
      (hr : ReadDocument.ofJson document = .ok current) (hd : r.Due s key current.model v)
      (hs : s' = (Store.save ⟨key, current.schema, r.now, v, some r.metadata⟩ s).store) :
      Settles r s key document s' v

theorem keep_ok {schema : Introspection.Schema} {version : Binary64} {x : Snapshot}
    (h : (r.keep key schema version s).answer = .ok x) :
    x = ⟨key, schema, r.now, version, some r.metadata⟩ := by
  unfold keep at h
  obtain ⟨_, _, h, _⟩ := filed_bind h
  obtain ⟨_, _, h, _⟩ := filed_bind h
  exact (Except.ok.inj h).symm

theorem keep_given {schema : Introspection.Schema} {version : Binary64} {s' : Store}
    (h : (Store.save ⟨key, schema, r.now, version, some r.metadata⟩).Gives s s' ()) :
    (r.keep key schema version).Gives s s' ⟨key, schema, r.now, version, some r.metadata⟩ :=
  gives_bind h (gives_bind (gives_log _ _ _ s') (gives_pure _ s'))

/-- A new version that is not forced settles its document. -/
theorem snapshot_ok {x : Snapshot} (h : (r.snapshot key document none s).answer = .ok x) :
    r.Settles s key document (r.snapshot key document none s).store x.version := by
  unfold snapshot at h ⊢
  obtain ⟨current, hr, h, hs⟩ := still_result (still_lift _ s) h
  rw [hs]
  obtain ⟨found, hl, h, hs⟩ := still_result (Store.still_load key s) h
  rw [hs]
  cases found with
  | none =>
    rw [keep_ok h]
    exact .kept hr (.first hl) (r.keep_saves s _ _ _).1
  | some existing =>
    obtain ⟨previous, hb, h, hs⟩ := still_result (still_lift _ s) h
    rw [hs]
    by_cases hc : (previous.changes r.policy current.model).isEmpty = true
    · rw [if_pos hc] at h ⊢
      obtain rfl : existing = x := Except.ok.inj h
      exact .unchanged hr hl hb (by simpa using hc) rfl
    · rw [if_neg hc] at h ⊢
      rw [keep_ok h]
      exact .kept hr (.next hl hb (by simpa using hc)) (r.keep_saves s _ _ _).1

/-- A check that keeps and updates settles its document. -/
theorem check_ok (ha : r.autoSnapshot = true) (hu : r.autoUpdate = true) {report : Report Nat}
    (h : (r.check key document s).answer = .ok report) :
    r.Settles s key document (r.check key document s).store report.currentVersion := by
  unfold check at h ⊢
  obtain ⟨current, hr, h, hs⟩ := still_result (still_lift _ s) h
  rw [hs]
  obtain ⟨found, hl, h, hs⟩ := still_result (Store.still_load key s) h
  rw [hs]
  cases found with
  | none =>
    dsimp only at h ⊢
    rw [if_pos ha] at h ⊢
    obtain ⟨_, _, hp, _⟩ := filed_bind h
    obtain rfl : r.report key 1 1 [] = report := Except.ok.inj hp
    refine .kept hr (.first hl) ?_
    exact (saves_bind (r.keep_saves s _ _ _) fun _ s' => still_pure _ s').1
  | some existing =>
    obtain ⟨previous, hb, h, hs⟩ := still_result (still_lift _ s) h
    rw [hs]
    dsimp only at h ⊢
    by_cases hc : (previous.changes r.policy current.model).isEmpty = true
    · rw [hc, Bool.not_true, Bool.and_false, if_neg Bool.false_ne_true, if_pos rfl] at h ⊢
      obtain rfl : r.report key existing.version existing.version _ = report := Except.ok.inj h
      exact .unchanged hr hl hb (by simpa using hc) rfl
    · rw [hu, Bool.eq_false_iff.mpr hc, Bool.not_false, Bool.and_true, if_pos rfl,
        if_neg Bool.false_ne_true] at h ⊢
      obtain ⟨_, _, hp, _⟩ := filed_bind h
      obtain rfl : r.report key existing.version (existing.version + 1) _ = report :=
        Except.ok.inj hp
      refine .kept hr (.next hl hb (by simpa using hc)) ?_
      refine (saves_bind (r.keep_saves s _ _ _) fun _ s' => ?_).1
      exact still_bind (still_log _ (by decide) _ s') fun _ => still_pure _ s'

/-- A check that updates keeps a document that has changes as the next version, and reports them. -/
theorem check_updates {existing : Snapshot} {previous : Model} {current : ReadDocument} {s' : Store}
    (hr : ReadDocument.ofJson document = .ok current)
    (hl : (Store.load key).Gives s s (some existing))
    (hb : Model.ofSchema existing.schema = .ok previous) (hu : r.autoUpdate = true)
    (hc : previous.changes r.policy current.model ≠ [])
    (hs : (Store.save ⟨key, current.schema, r.now, existing.version + 1,
      some r.metadata⟩).Gives s s' ()) :
    (r.check key document).Gives s s' (r.report key existing.version (existing.version + 1)
        (previous.changes r.policy current.model)) ∧
      Log.filed (r.check key document s).log = [(key, existing.version + 1)] := by
  have hon : (r.autoUpdate && !(previous.changes r.policy current.model).isEmpty) = true := by
    simp [hu, hc]
  have hv : (if (previous.changes r.policy current.model).isEmpty = true then existing.version
      else existing.version + 1) = existing.version + 1 := if_neg (by simpa using hc)
  have hsaves : (r.check key document).Saves s
      ⟨key, current.schema, r.now, existing.version + 1, some r.metadata⟩ := by
    unfold check
    refine saves_after (still_lift _ s) hr (saves_after (Store.still_load key s) hl.2 ?_)
    refine saves_after (still_lift _ s) hb ?_
    dsimp only
    rw [if_pos hon, hv]
    refine saves_bind (r.keep_saves s _ _ _) fun _ s' => ?_
    exact still_bind (still_log _ (by decide) _ s') fun _ => still_pure _ s'
  refine ⟨?_, hsaves.2.trans (Store.filed_put hs.2)⟩
  unfold check
  refine gives_bind ⟨rfl, hr⟩ (gives_bind hl (gives_bind ⟨rfl, hb⟩ ?_))
  dsimp only
  rw [if_pos hon, hv]
  exact gives_bind (keep_given hs) (gives_bind (gives_log _ _ _ s') (gives_pure _ s'))

/-- A check of a document against a latest version gives a report, unless it has to write and
cannot. -/
theorem check_given {existing : Snapshot} {previous : Model} {current : ReadDocument}
    (hr : ReadDocument.ofJson document = .ok current)
    (hl : (Store.load key).Gives s s (some existing))
    (hb : Model.ofSchema existing.schema = .ok previous)
    (hs : r.autoUpdate = false ∨ ∀ x : Snapshot, x.key = key → ∃ s', (Store.save x).Gives s s' ()) :
    ∃ s' report, (r.check key document).Gives s s' report := by
  let changes := previous.changes r.policy current.model
  let version := if changes.isEmpty then existing.version else existing.version + 1
  by_cases hu : (r.autoUpdate && !changes.isEmpty) = true
  · obtain ⟨hon, hc⟩ := (Bool.and_eq_true _ _).mp hu
    have hsave := hs.resolve_left (by simp [hon])
    obtain ⟨s', hg⟩ := hsave ⟨key, current.schema, r.now, _, some r.metadata⟩ rfl
    exact ⟨s', _, (check_updates hr hl hb hon (by simpa using hc) hg).1⟩
  · refine ⟨s, r.report key existing.version version changes, ?_⟩
    unfold check
    refine gives_bind ⟨rfl, hr⟩ (gives_bind hl (gives_bind ⟨rfl, hb⟩ ?_))
    dsimp only
    rw [if_neg hu]
    exact gives_bind (gives_log _ _ _ s) (gives_pure _ s)

/-- A document has no changes from the latest version of a key: a check finds it to be version
`n`, and a new version is not made of it. -/
structure Settled (r : Registry) (s : Store) (key : String) (document : Json) (n : Binary64) :
    Prop where
  checked : (r.check key document).Gives s s (r.report key n n [])
  found : ∃ y, (Store.load key).Gives s s (some y) ∧ y.version = n ∧
    (r.snapshot key document none).Gives s s y

/-- Whether a document has changes from the latest version does not depend on how they are
judged. -/
theorem settled_of_loaded {y : Snapshot} {previous : Model} {current : ReadDocument}
    {policy : Policy} (hl : (Store.load key).Gives s s (some y))
    (hb : Model.ofSchema y.schema = .ok previous) (hr : ReadDocument.ofJson document = .ok current)
    (hc : previous.changes policy current.model = []) : r.Settled s key document y.version := by
  have hbuilt := Model.built_of_schema (ReadDocument.of_json_ok hr).2
  have hc' : previous.changes r.policy current.model = [] := by
    by_contra hne
    exact Model.changes_nonempty hbuilt hne policy hc
  constructor
  · unfold check
    refine gives_bind ⟨rfl, hr⟩ (gives_bind hl (gives_bind ⟨rfl, hb⟩ ?_))
    dsimp only
    rw [hc', List.isEmpty_nil, Bool.not_true, Bool.and_false, if_neg Bool.false_ne_true,
      if_pos rfl]
    exact gives_bind (gives_log _ _ _ s) (gives_pure _ s)
  · refine ⟨y, hl, rfl, ?_⟩
    unfold snapshot
    refine gives_bind ⟨rfl, hr⟩ (gives_bind hl (gives_bind ⟨rfl, hb⟩ ?_))
    rw [hc', if_pos List.isEmpty_nil]
    exact gives_bind (gives_log _ _ _ s) (gives_pure y s)

theorem Settles.settled (h : s.Tidy) (hd : document.Distinct) (hm : Json.Clear r.metadata)
    {s' : Store} {n : Binary64} (hs : r.Settles s key document s' n) (later : Registry) :
    later.Settled s' key document n := by
  cases hs with
  | unchanged hr hl hb hc hs =>
    rw [hs]
    exact settled_of_loaded (Store.gives_load hl) hb hr hc
  | kept hr hdue hs =>
    obtain ⟨s'', y, hg, _, hl, rfl, hb⟩ := due_kept h hr hd hm hdue
    rw [hs, hg.1]
    have hbuilt := Model.built_of_schema (ReadDocument.of_json_ok hr).2
    exact settled_of_loaded hl hb hr (Model.changes_self hbuilt .baseName)

theorem standard_clear (now : String) : Json.Clear (Registry.standard now).metadata := by
  simp [Json.Clear, Registry.standard]

/-- What is due is kept as a new version. -/
theorem snapshot_due {current : ReadDocument} {v : Binary64} {s' : Store}
    (hr : ReadDocument.ofJson document = .ok current) (hd : r.Due s key current.model v)
    (hs : (Store.save ⟨key, current.schema, r.now, v, some r.metadata⟩).Gives s s' ()) :
    (r.snapshot key document none).Gives s s' ⟨key, current.schema, r.now, v, some r.metadata⟩ := by
  have hk := keep_given hs
  unfold snapshot
  cases hd with
  | first hl => exact gives_bind ⟨rfl, hr⟩ (gives_bind (Store.gives_load hl) hk)
  | next hl hb hc =>
    refine gives_bind ⟨rfl, hr⟩ (gives_bind (Store.gives_load hl) (gives_bind ⟨rfl, hb⟩ ?_))
    rw [if_neg (by simpa using hc)]
    exact hk

/-- The first document of a key is kept as version one. -/
theorem first_kept (path : Path) {current : ReadDocument}
    (hr : ReadDocument.ofJson document = .ok current) (hd : document.Distinct)
    (hm : Json.Clear r.metadata) (key : String) : ∃ s y,
      (r.snapshot key document none).Gives ⟨path, none⟩ s
        ⟨key, current.schema, r.now, 1, some r.metadata⟩ ∧ s.Tidy ∧
      (Store.load key).Gives s s (some y) ∧ y.version = 1 ∧
      Model.ofSchema y.schema = .ok current.model := by
  have hv : Store.Shows ⟨path, none⟩ (Key.directoryName key) [] := .inr ⟨rfl, rfl⟩
  have hl : (Store.load key ⟨path, none⟩).answer = .ok none :=
    (Store.load_answer key _).trans ((Store.snapshot_none_iff hv).mpr rfl)
  obtain ⟨s, y, hg, ht, hy⟩ := due_kept (Store.tidy_absent path) hr hd hm (.first hl)
  exact ⟨s, y, snapshot_due hr (.first hl) hg, ht, hy⟩

end Registry

namespace Store

open SchemaHistory.Action Binary64

theorem run_snapshot {s s' : Store} {r : Registry} {key : String} {document : Json}
    {version : Option Binary64} {x : Snapshot}
    (h : (r.snapshot key document version).Gives s s' x) :
    s.run [(r, .snapshot key document version)] = s' := by
  rw [run, List.foldl_cons, List.foldl_nil]
  exact (gives_bind h (gives_pure () s')).1

theorem sizes_clear : ∀ c ∈ [(Registry.standard "", Call.snapshot "shop"
    (Introspection.sizeDocument "Int") none)], c.2.Clear c.1 := by
  simpa [Call.Clear] using
    ⟨Introspection.size_document_distinct "Int", Registry.standard_clear ""⟩

/-- Of two documents with different types, the second one is kept as version two. -/
theorem sizes_kept : ∃ s s' x,
    run ⟨["srv"], none⟩ [(.standard "",
      .snapshot "shop" (Introspection.sizeDocument "Int") none)] = s ∧
    ((Registry.standard "").snapshot "shop" (Introspection.sizeDocument "Float") none).Gives
      s s' x ∧ x.version = .ofNat 2 := by
  have hint := ReadDocument.of_size_document
    (rfl : Model.ofSchema (Introspection.sizeSchema "Int") = .ok _)
  have hfloat := ReadDocument.of_size_document
    (rfl : Model.ofSchema (Introspection.sizeSchema "Float") = .ok _)
  have hm := Registry.standard_clear ""
  obtain ⟨s, y, hfirst, htidy, hl, hy, hb⟩ :=
    Registry.first_kept ["srv"] hint (Introspection.size_document_distinct "Int") hm "shop"
  have hdue := Registry.Due.next (r := .standard "") hl.2 hb Model.size_changes
  obtain ⟨s', _, hg, _⟩ :=
    Registry.due_kept htidy hfloat (Introspection.size_document_distinct "Float") hm hdue
  have hnext : (1 : Binary64) + 1 = .ofNat 2 := of_nat_succ (by decide)
  exact ⟨s, s', _, run_snapshot hfirst, Registry.snapshot_due hfloat hdue hg,
    (congrArg (· + 1) hy).trans hnext⟩

/-- After whatever run, a new version that is not forced, or a check that keeps and updates, settles
its document: whoever asks next is told that there are no changes, and nothing more is written. -/
theorem snapshot_settles (path : Path) {calls : List (Registry × Call)}
    (hc : ∀ c ∈ calls, c.2.Clear c.1) {r : Registry} {document : Json} (hd : document.Distinct)
    (hm : Json.Clear r.metadata) (key : String) (later : Registry) :
    (∀ s' x, (r.snapshot key document none).Gives (run ⟨path, none⟩ calls) s' x →
      later.Settled s' key document x.version) ∧
    (r.autoSnapshot = true → r.autoUpdate = true → ∀ s' report,
      (r.check key document).Gives (run ⟨path, none⟩ calls) s' report →
        later.Settled s' key document report.currentVersion) := by
  have h := run_tidy (tidy_absent path) hc
  constructor
  · rintro s' x ⟨rfl, hx⟩
    exact (Registry.snapshot_ok hx).settled h hd hm later
  · rintro ha hu s' report ⟨rfl, hx⟩
    exact (Registry.check_ok ha hu hx).settled h hd hm later

/-- A second document gets the second version, which a check then finds unchanged. -/
theorem snapshot_settles_sizes : ∃ s s' x,
    run ⟨["srv"], none⟩ [(.standard "",
      .snapshot "shop" (Introspection.sizeDocument "Int") none)] = s ∧
    ((Registry.standard "").snapshot "shop" (Introspection.sizeDocument "Float") none).Gives
      s s' x ∧ x.version = .ofNat 2 ∧
    (Registry.standard "").Settled s' "shop" (Introspection.sizeDocument "Float") x.version := by
  obtain ⟨s, s', x, hrun, hsecond, hx⟩ := sizes_kept
  refine ⟨s, s', x, hrun, hsecond, hx, ?_⟩
  rw [← hrun] at hsecond
  exact (snapshot_settles ["srv"] sizes_clear (Introspection.size_document_distinct "Float")
    (Registry.standard_clear "") "shop" (.standard "")).1 s' x hsecond

end Store

end SchemaHistory
