import SchemaHistory.Proofs.Calls
import SchemaHistory.Proofs.Compatible

namespace SchemaHistory

theorem forall₂_at {α β : Type} {p : α → β → Prop} {xs : List α} {ys : List β} {i : Nat} {y : β}
    (h : List.Forall₂ p xs ys) (hy : ys[i]? = some y) : ∃ x, xs[i]? = some x ∧ p x y := by
  obtain ⟨hi, rfl⟩ := List.getElem?_eq_some_iff.mp hy
  have hx : i < xs.length := h.length_eq ▸ hi
  exact ⟨xs[i], List.getElem?_eq_getElem hx, h.get hx hi⟩

namespace Model

variable {policy : Policy} {a b : Model}

/-- A model does not differ from itself. -/
theorem changes_self (ha : a.Built) (policy : Policy) : a.changes policy a = [] := by
  refine List.eq_nil_iff_forall_not_mem.mpr fun c hc => ?_
  rcases (mem_changes ha).mp hc with ⟨n, hn, hno, _⟩ | ⟨s, hs, t, ht, he, h⟩ | ⟨n, hn, hno, _⟩
  · exact hno hn
  · obtain rfl : s = t := List.inj_on_of_nodup_map ha.names_distinct hs ht he
    have hd := (ha.types_built s hs).members_distinct
    cases h with
    | kindLeft hk => exact hk rfl
    | kindCame hk => exact hk rfl
    | memberGone _ hm hno => exact hno (List.mem_map_of_mem hm)
    | memberNew _ hm hno => exact hno (List.mem_map_of_mem hm)
    | memberChanged _ hm hn he hx =>
      rw [List.inj_on_of_nodup_map hd hm hn he] at hx
      exact hx rfl
    | valueGone _ hv hno => exact hno hv
    | valueNew _ hv hno => exact hno hv
  · exact hno hn

/-- The critical changes are those that break clients. -/
theorem breaking_iff_critical (hb : b.Built) {c : Change} (hc : c ∈ a.changes policy b) :
    c.isBreaking = true ↔ c.severity = .critical := by
  have hminor : Severity.minor ≠ .critical := by decide
  have hmajor : Severity.major ≠ .critical := by decide
  rcases (mem_changes hb).mp hc with ⟨_, _, _, rfl⟩ | ⟨s, _, t, _, _, hs⟩ | ⟨_, _, _, rfl⟩
  · exact iff_of_true rfl rfl
  · cases hs with
    | kindLeft _ => exact iff_of_true rfl rfl
    | kindCame _ => exact iff_of_false Bool.false_ne_true hminor
    | memberGone _ _ _ => exact iff_of_true rfl rfl
    | memberNew _ _ _ => exact iff_of_false Bool.false_ne_true hminor
    | memberChanged _ _ _ _ _ =>
      unfold Change.fieldTypeChanged
      split
      · rename_i hbreaks
        exact iff_of_true hbreaks rfl
      · rename_i hsafe
        exact iff_of_false hsafe hmajor
    | valueGone _ _ _ => exact iff_of_true rfl rfl
    | valueNew _ _ _ => exact iff_of_false Bool.false_ne_true hminor
  · exact iff_of_false Bool.false_ne_true hminor

/-- Whatever severity a report lists from, it lists all changes that break clients. -/
theorem count_breaking_listed (hb : b.Built) (least : Severity) :
    Change.countBreaking (Change.atLeast least (a.changes policy b))
      = Change.countBreaking (a.changes policy b) := by
  unfold Change.countBreaking Change.atLeast
  rw [List.filter_filter]
  refine congrArg List.length (List.filter_congr fun c hc => ?_)
  cases h : c.isBreaking with
  | false => rfl
  | true =>
    rw [(breaking_iff_critical hb hc).mp h]
    cases least <;> rfl

theorem steps_length (policy : Policy) (index : Nat) {models : List Model} (h : models ≠ []) :
    (stepsFrom policy index models).length + 1 = models.length := by
  fun_induction stepsFrom policy index models with
  | case1 index a b models ih =>
    rw [List.length_cons, ih (List.cons_ne_nil _ _)]
    rfl
  | case2 models index hne =>
    cases models with
    | nil => exact absurd rfl h
    | cons a models =>
      cases models with
      | nil => rfl
      | cons b models => exact absurd rfl (hne a b models)

/-- Each step is that from one model of the sequence to the next. -/
theorem steps_get {index i : Nat} {models : List Model} {x : Metrics Nat}
    (h : (stepsFrom policy index models)[i]? = some x) : ∃ a b, models[i]? = some a ∧
      models[i + 1]? = some b ∧ x = Metrics.ofChanges (index + i) (a.changes policy b) := by
  fun_induction stepsFrom policy index models generalizing i with
  | case1 index a b models ih =>
    cases i with
    | zero => exact ⟨a, b, rfl, rfl, (Option.some.inj h).symm⟩
    | succ i =>
      obtain ⟨c, d, hc, hd, hx⟩ := ih h
      rw [Nat.add_right_comm] at hx
      exact ⟨c, d, hc, hd, hx⟩
  | case2 models index hne => cases h

end Model

/-- Two reports tell the same about the changes, whatever versions they name. -/
structure Report.Agrees (x y : Report Nat) : Prop where
  changes : x.changes = y.changes
  counts : x.counts = y.counts
  score : x.score = y.score
  rating : x.rating = y.rating
  hasBreakingChanges : x.hasBreakingChanges = y.hasBreakingChanges
  suggestions : x.suggestions = y.suggestions

namespace Registry

open SchemaHistory.Action

variable (r : Registry) {s : Store} {key : String}

theorem reports_agree (key other : String) (a b c d : Binary64) (changes : List Change) :
    (r.report key a b changes).Agrees (r.report other c d changes) :=
  ⟨rfl, rfl, rfl, rfl, rfl, rfl⟩

theorem compare_given {before after : Json} {previous current : ReadDocument}
    (hb : ReadDocument.ofJson before = .ok previous)
    (ha : ReadDocument.ofJson after = .ok current) : r.compare before after
      = .ok (r.report comparisonKey 1 2 (previous.model.changes r.policy current.model)) :=
  bind_ok.mpr ⟨previous, hb, bind_ok.mpr ⟨current, ha, rfl⟩⟩

section

variable {document : Json} {report : Report Nat}

theorem check_first (hl : (Store.load key s).answer = .ok none)
    (h : (r.check key document s).answer = .ok report) : report = r.report key 1 1 [] := by
  unfold check at h
  obtain ⟨_, _, h, _⟩ := still_ok (still_lift _ s) h
  obtain ⟨found, hf, h, _⟩ := still_ok (Store.still_load key s) h
  obtain rfl : found = none := Except.ok.inj (hf.symm.trans hl)
  dsimp only at h
  split at h
  · obtain ⟨_, _, h, _⟩ := filed_bind h
    exact (Except.ok.inj h).symm
  · exact (Except.ok.inj h).symm

theorem check_changed {current : ReadDocument} {existing : Snapshot} {previous : Model}
    (hr : ReadDocument.ofJson document = .ok current)
    (hl : (Store.load key s).answer = .ok (some existing))
    (hb : Model.ofSchema existing.schema = .ok previous)
    (hc : previous.changes r.policy current.model ≠ [])
    (h : (r.check key document s).answer = .ok report) :
    report = r.report key existing.version (existing.version + 1)
      (previous.changes r.policy current.model) := by
  unfold check at h
  obtain ⟨_, hr', h, _⟩ := still_ok (still_lift _ s) h
  obtain rfl := Except.ok.inj (hr.symm.trans hr')
  obtain ⟨_, hl', h, _⟩ := still_ok (Store.still_load key s) h
  obtain rfl := Except.ok.inj (hl.symm.trans hl')
  obtain ⟨_, hb', h, _⟩ := still_ok (still_lift _ s) h
  obtain rfl := Except.ok.inj (hb.symm.trans hb')
  have hv : (if (previous.changes r.policy current.model).isEmpty = true then existing.version
      else existing.version + 1) = existing.version + 1 := if_neg (by simpa using hc)
  dsimp only at h
  rw [hv] at h
  split at h
  · obtain ⟨_, _, h, _⟩ := filed_bind h
    obtain ⟨_, _, h, _⟩ := filed_bind h
    exact (Except.ok.inj h).symm
  · obtain ⟨_, _, h, _⟩ := filed_bind h
    exact (Except.ok.inj h).symm

/-- What a check that writes has found: a first version, or changes against the latest one. -/
theorem check_wrote (h : (r.check key document s).answer = .ok report)
    (hf : Log.filed (r.check key document s).log ≠ []) : ∃ current,
      ReadDocument.ofJson document = .ok current ∧
      (r.check key document).Saves s
        ⟨key, current.schema, r.now, report.currentVersion, some r.metadata⟩ ∧
      ((Store.load key s).answer = .ok none ∧ report = r.report key 1 1 [] ∨
        ∃ existing previous, (Store.load key s).answer = .ok (some existing) ∧
          Model.ofSchema existing.schema = .ok previous ∧
          report = r.report key existing.version (existing.version + 1)
            (previous.changes r.policy current.model)) := by
  rcases r.check_writes s key document with hs | ⟨x, hx, hs⟩
  · exact absurd hs.2 hf
  · cases hx with
    | checked hr hd =>
      cases hd with
      | first hl =>
        obtain rfl := r.check_first hl h
        exact ⟨_, hr, hs, .inl ⟨hl, rfl⟩⟩
      | next hl hb hc =>
        obtain rfl := r.check_changed hr hl hb hc h
        exact ⟨_, hr, hs, .inr ⟨_, _, hl, hb, rfl⟩⟩

end

/-- A track goes through the versions that are listed, and each of its metrics belongs to the step
from one of them to the next. -/
theorem track_given {t : Track Nat} {xs : List Snapshot}
    (hx : (Store.versions key).Gives s s xs) (h : (r.track key s).answer = .ok t) :
    t.versions = xs.map Snapshot.version ∧ t.metrics.length + 1 = xs.length ∧
      ∀ i x, t.metrics[i]? = some x → ∃ y z before after, xs[i]? = some y ∧
        xs[i + 1]? = some z ∧ Model.ofSchema y.schema = .ok before ∧
        Model.ofSchema z.schema = .ok after ∧
        x = Metrics.ofChanges (i + 1) (before.changes r.policy after) := by
  unfold track at h
  obtain ⟨ys, hy, h, _⟩ := still_ok (Store.still_versions key s) h
  obtain rfl : xs = ys := Except.ok.inj (hx.2.symm.trans hy)
  dsimp only [Action.lift] at h
  split at h
  · cases h
  · rename_i hl
    obtain ⟨models, hm, h⟩ := bind_ok.mp h
    obtain ⟨metrics, hs, h⟩ := bind_ok.mp h
    obtain rfl := Except.ok.inj h
    have hall := mapM_ok hm
    have hmetrics : Model.stepsFrom r.policy 1 models = metrics := by
      unfold Model.steps at hs
      split at hs
      · cases hs
      · exact Except.ok.inj hs
    have hne : models ≠ [] := by
      intro he
      rw [he] at hall
      exact hl (by simp [List.forall₂_nil_right_iff.mp hall])
    subst hmetrics
    refine ⟨rfl, (Model.steps_length _ _ hne).trans hall.length_eq.symm, fun i x hi => ?_⟩
    obtain ⟨before, after, hb, ha, he⟩ := Model.steps_get hi
    obtain ⟨y, hy, hyb⟩ := forall₂_at hall hb
    obtain ⟨z, hz, hza⟩ := forall₂_at hall ha
    rw [Nat.add_comm] at he
    exact ⟨y, z, before, after, hy, hz, hyb, hza, he⟩

end Registry

end SchemaHistory
