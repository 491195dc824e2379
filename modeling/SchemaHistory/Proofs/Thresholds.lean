import SchemaHistory.Proofs.Comparisons
import SchemaHistory.Proofs.Rereading

namespace SchemaHistory

theorem Severity.le_chain {s t u : Severity} (h : s ≤ t) (h' : t ≤ u) : s ≤ u :=
  Nat.le_trans h h'

/-- What is left from a higher severity on is left of what a lower one leaves. -/
theorem Change.at_least_narrowed {m n : Severity} (h : m ≤ n) (changes : List Change) :
    atLeast n (atLeast m changes) = atLeast n changes := by
  unfold atLeast
  rw [List.filter_filter]
  refine List.filter_congr fun c _ => ?_
  by_cases hc : n ≤ c.severity
  · simp [hc, Severity.le_chain h hc]
  · simp [hc]

namespace Model

variable {policy : Policy} {a b : Model}

/-- From the highest severity on, what is left is what breaks clients. -/
theorem critical_changes (hb : b.Built) :
    Change.atLeast .critical (a.changes policy b)
      = (a.changes policy b).filter Change.isBreaking := by
  unfold Change.atLeast
  refine List.filter_congr fun c hc => ?_
  have hcritical : Severity.critical ≤ c.severity ↔ c.severity = .critical := by
    cases c.severity <;> decide
  rw [Bool.eq_iff_iff, decide_eq_true_iff, hcritical, breaking_iff_critical hb hc]

end Model

namespace Report

/-- A report with a higher threshold: it lists what is left of the changes, and tells the same of
all of them. -/
structure Narrows (n : Severity) (x y : Report Nat) : Prop where
  changes : y.changes = Change.atLeast n x.changes
  breaking : y.counts.breaking = x.counts.breaking
  score : y.score = x.score
  rating : y.rating = x.rating
  hasBreakingChanges : y.hasBreakingChanges = x.hasBreakingChanges
  suggestions : y.suggestions = x.suggestions

/-- The counts of a report agree with its list and with each other, and so does its flag. -/
structure Consistent (x : Report Nat) : Prop where
  listed : x.counts.total = x.changes.length
  severities : x.counts.critical + x.counts.major + x.counts.minor = x.counts.total
  effects : x.counts.breaking + x.counts.nonBreaking = x.counts.total
  flagged : x.hasBreakingChanges = true ↔ 0 < x.counts.breaking

/-- Each change has one severity. -/
theorem Counts.severities (changes : List Change) :
    (Counts.ofChanges changes).critical + (Counts.ofChanges changes).major
      + (Counts.ofChanges changes).minor = changes.length := by
  induction changes with
  | nil => rfl
  | cons c changes ih =>
    simp only [ofChanges, List.filter_cons, List.length_cons] at ih ⊢
    cases c.severity <;> simp <;> omega

theorem Counts.effects (changes : List Change) :
    (Counts.ofChanges changes).breaking + (Counts.ofChanges changes).nonBreaking
      = changes.length :=
  Nat.add_sub_of_le (List.length_filter_le Change.isBreaking changes)

end Report

theorem Change.count_breaking_pos {changes : List Change} :
    0 < countBreaking changes ↔ changes.any Change.isBreaking = true := by
  rw [countBreaking, List.length_pos_iff_exists_mem, List.any_eq_true]
  simp

namespace Introspection

def parcel : Schema :=
  .ofTypes "Query" [.object "Query" [("size", .last "SCALAR" (some "Int")),
    ("weight", .last "SCALAR" (some "Int"))]]

/-- One field has another type, one may no longer be null, and one is new. -/
def revisedParcel : Schema :=
  .ofTypes "Query" [.object "Query" [("size", .last "SCALAR" (some "Float")),
    ("weight", .link "NON_NULL" none (.last "SCALAR" (some "Int"))),
    ("unit", .last "SCALAR" (some "String"))]]

end Introspection

namespace Registry

variable (r : Registry) {a b : Model}

/-- The flag is about all changes and the count about those that are listed. They agree, since no
threshold leaves out a change that breaks clients. -/
theorem report_consistent (hb : b.Built) (key : String) (v w : Binary64) :
    (r.report key v w (a.changes r.policy b)).Consistent where
  listed := rfl
  severities := Report.Counts.severities _
  effects := Report.Counts.effects _
  flagged := by
    change (a.changes r.policy b).any Change.isBreaking = true ↔
      0 < Change.countBreaking (Change.atLeast r.least (a.changes r.policy b))
    rw [Model.count_breaking_listed hb, Change.count_breaking_pos]

theorem report_narrows (hb : b.Built) {m n : Severity} (h : m ≤ n) (key : String)
    (v w : Binary64) : ({ r with least := m }.report key v w (a.changes r.policy b)).Narrows n
      ({ r with least := n }.report key v w (a.changes r.policy b)) where
  changes := (Change.at_least_narrowed h _).symm
  breaking := by
    change Change.countBreaking (Change.atLeast n _) = Change.countBreaking (Change.atLeast m _)
    rw [Model.count_breaking_listed hb, Model.count_breaking_listed hb]
  score := rfl
  rating := rfl
  hasBreakingChanges := rfl
  suggestions := rfl

/-- With a higher threshold the comparison of two documents hides changes and tells the same
otherwise. What no threshold hides is what breaks clients. -/
theorem least_only_hides {before after : Json} {previous current : ReadDocument}
    (hb : ReadDocument.ofJson before = .ok previous) (ha : ReadDocument.ofJson after = .ok current)
    {m n : Severity} (h : m ≤ n) : ∃ x y,
      { r with least := m }.compare before after = .ok x ∧
      { r with least := n }.compare before after = .ok y ∧
      x.Narrows n y ∧ x.Consistent ∧ y.Consistent ∧
      (n = .critical →
        y.changes = (previous.model.changes r.policy current.model).filter Change.isBreaking) ∧
      ∀ c ∈ previous.model.changes r.policy current.model,
        c.isBreaking = true ↔ c.severity = .critical := by
  have hbuilt := Model.built_of_schema (ReadDocument.of_json_ok ha).2
  refine ⟨_, _, compare_given _ hb ha, compare_given _ hb ha, r.report_narrows hbuilt h _ _ _,
    report_consistent { r with least := m } hbuilt _ _ _,
    report_consistent { r with least := n } hbuilt _ _ _, ?_,
    fun c hc => Model.breaking_iff_critical hbuilt hc⟩
  rintro rfl
  exact Model.critical_changes hbuilt

/-- Of three changes, one of each severity, the highest threshold leaves one. -/
theorem least_only_hides_parcels : ∃ x y,
    { Registry.standard "" with policy := .structural, least := .minor }.compare
      (.object [("__schema", Introspection.parcel.toJson)])
      (.object [("__schema", Introspection.revisedParcel.toJson)]) = .ok x ∧
    { Registry.standard "" with policy := .structural, least := .critical }.compare
      (.object [("__schema", Introspection.parcel.toJson)])
      (.object [("__schema", Introspection.revisedParcel.toJson)]) = .ok y ∧
    x.Narrows .critical y ∧ x.Consistent ∧ y.Consistent ∧
    x.changes.map Change.severity = [.critical, .major, .minor] ∧ y.changes.length = 1 := by
  have hbefore : ReadDocument.ofJson (.object [("__schema", Introspection.parcel.toJson)])
      = .ok ⟨Introspection.parcel, _⟩ := ReadDocument.of_written rfl
  have hafter : ReadDocument.ofJson (.object [("__schema", Introspection.revisedParcel.toJson)])
      = .ok ⟨Introspection.revisedParcel, _⟩ := ReadDocument.of_written rfl
  obtain ⟨x, y, hx, hy, hnarrows, hxc, hyc, _, _⟩ :=
    { Registry.standard "" with policy := .structural }.least_only_hides hbefore hafter
      (by decide : Severity.minor ≤ Severity.critical)
  obtain rfl := Except.ok.inj (hx.symm.trans (compare_given _ hbefore hafter))
  obtain rfl := Except.ok.inj (hy.symm.trans (compare_given _ hbefore hafter))
  exact ⟨_, _, hx, hy, hnarrows, hxc, hyc, by decide +kernel, by decide +kernel⟩

end Registry

end SchemaHistory
