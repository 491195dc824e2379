import SchemaHistory.Change.TypeChange
import SchemaHistory.Proofs.Built

namespace SchemaHistory

/-- What can stand where a type is asked for. A leaf knows the name of its type. -/
inductive Value where
  | null
  | leaf (name : String)
  | list (items : List Value)

namespace TypeRef

/-- The values that a type admits. -/
def Holds : TypeRef → Value → Prop
  | named name, v => v = .null ∨ v = .leaf name
  | list t, v => v = .null ∨ ∃ items, v = .list items ∧ ∀ x ∈ items, t.Holds x
  | nonNull t, v => v ≠ .null ∧ t.Holds v

/-- Every value of the first type is one of the second. -/
def Within (s t : TypeRef) : Prop :=
  ∀ v, s.Holds v → t.Holds v

theorem Within.refl (t : TypeRef) : t.Within t :=
  fun _ h => h

theorem Within.trans {r s t : TypeRef} (h1 : r.Within s) (h2 : s.Within t) : r.Within t :=
  fun v hv => h2 v (h1 v hv)

theorem holds_null {t : TypeRef} : t.Holds .null ↔ t.isNonNull = false := by
  cases t <;> simp [Holds, isNonNull]

/-- A mark on the smaller type costs nothing where the larger one has null. -/
theorem non_null_within {s t : TypeRef} (ht : t.isNonNull = false) :
    (nonNull s).Within t ↔ s.Within t := by
  constructor
  · intro h v hv
    by_cases hn : v = .null
    · exact hn ▸ holds_null.mpr ht
    · exact h v ⟨hn, hv⟩
  · intro h v hv
    exact h v hv.2

theorem non_null_within_non_null {s t : TypeRef} :
    (nonNull s).Within (nonNull t) ↔ (nonNull s).Within t :=
  ⟨fun h v hv => (h v hv).2, fun h v hv => ⟨hv.1, h v hv⟩⟩

theorem not_within_non_null {s t : TypeRef} (hs : s.isNonNull = false) :
    ¬s.Within (nonNull t) :=
  fun h => (h .null (holds_null.mpr hs)).1 rfl

/-- Lists of one item tell whether their items are included. -/
theorem list_within_list {s t : TypeRef} : (list s).Within (list t) ↔ s.Within t := by
  constructor
  · intro h v hv
    rcases h (.list [v]) (.inr ⟨[v], rfl, by simpa using hv⟩) with hn | ⟨items, he, hi⟩
    · cases hn
    · cases he
      exact hi v List.mem_cons_self
  · intro h v hv
    rcases hv with hn | ⟨items, he, hi⟩
    · exact .inl hn
    · exact .inr ⟨items, he, fun x hx => h x (hi x hx)⟩

theorem named_within_named {m n : String} : (named m).Within (named n) ↔ n = m := by
  constructor
  · intro h
    rcases h (.leaf m) (.inr rfl) with he | he
    · cases he
    · cases he
      rfl
  · intro heq
    subst heq
    exact Within.refl _

theorem not_named_within_list {name : String} {t : TypeRef} : ¬(named name).Within (list t) := by
  intro h
  rcases h (.leaf name) (.inr rfl) with he | ⟨_, he, _⟩ <;> cases he

theorem not_list_within_named {t : TypeRef} {name : String} : ¬(list t).Within (named name) := by
  intro h
  rcases h (.list []) (.inr ⟨[], rfl, by simp⟩) with he | he <;> cases he

/-- Input is output with the two types exchanged. -/
theorem replaceable_input (before after : TypeRef) :
    replaceable .input before after = replaceable .output after before := by
  fun_induction replaceable .input before after with
  | case1 a b ih => rw [replaceable, ih]
  | case2 a b hb ih =>
    rw [ih]
    cases b with
    | nonNull b => exact absurd rfl (hb b)
    | named _ => simp [replaceable]
    | list _ => simp [replaceable]
  | case3 a b ha ih =>
    cases a with
    | nonNull a => exact absurd rfl (ha a)
    | named _ => simp [replaceable]
    | list _ => simp [replaceable]
  | case4 a b ih => rw [replaceable, ih]
  | case5 m n => simp [replaceable, eq_comm]
  | case6 a b h1 h2 h3 h4 h5 =>
    cases a <;> cases b <;> simp_all [replaceable]

/-- Output may become any type whose values the old one had. -/
theorem replaceable_output_iff {before after : TypeRef} (hb : before.Regular)
    (ha : after.Regular) : replaceable .output before after = true ↔ after.Within before := by
  fun_induction replaceable .output before after with
  | case1 a b ih =>
    rw [ih hb.2 ha.2, non_null_within_non_null, non_null_within hb.1]
  | case2 a b hn ih =>
    cases b with
    | nonNull b => exact absurd rfl (hn b)
    | named _ => simpa using not_within_non_null rfl
    | list _ => simpa using not_within_non_null rfl
  | case3 a b hn ih =>
    have hm : a.isNonNull = false := by
      cases a with
      | nonNull a => exact absurd rfl (hn a)
      | named _ => rfl
      | list _ => rfl
    simpa [non_null_within hm] using ih hb ha.2
  | case4 a b ih => rw [ih hb ha, list_within_list]
  | case5 m n => simp [named_within_named]
  | case6 a b h1 h2 h3 h4 h5 =>
    cases a with
    | nonNull a => exact absurd rfl (h2 a)
    | named m =>
      cases b with
      | nonNull b => exact absurd rfl (h3 b)
      | named n => exact absurd rfl (h5 m n rfl)
      | list b => simpa using not_list_within_named
    | list a =>
      cases b with
      | nonNull b => exact absurd rfl (h3 b)
      | named n => simpa using not_named_within_list
      | list b => exact absurd rfl (h4 a b rfl)

/-- Input may become any type that has all values of the old one. -/
theorem replaceable_input_iff {before after : TypeRef} (hb : before.Regular)
    (ha : after.Regular) : replaceable .input before after = true ↔ before.Within after := by
  rw [replaceable_input, replaceable_output_iff ha hb]

/-- The structural policy calls a change safe just when no value is lost: for output every new value
was possible before, for input every old value is still possible. Built models have no reference
that the policy could misjudge. -/
theorem structural_change_safe_iff :
    (∀ before after : TypeRef, before.Regular → after.Regular →
      (isBreakingChange .structural .output before after = false ↔ after.Within before) ∧
      (isBreakingChange .structural .input before after = false ↔ before.Within after)) ∧
    ∀ s m, Model.ofSchema s = .ok m → ∀ r ∈ m.refs, r.Regular := by
  refine ⟨?_, fun s m h => (Model.built_of_schema h).refs_regular⟩
  intro before after hb ha
  simp only [isBreakingChange, Bool.not_eq_false']
  exact ⟨replaceable_output_iff hb ha, replaceable_input_iff hb ha⟩

/-- Lists of integers that lose their nulls, as output, as input, and inside a document. -/
theorem structural_change_safe_integers :
    (nonNull (list (nonNull (named "Int")))).Within (list (named "Int")) ∧
    ¬(list (named "Int")).Within (nonNull (list (nonNull (named "Int")))) ∧
    (nonNull (list (named "Int"))).Regular := by
  have h := structural_change_safe_iff.1 (list (named "Int"))
    (nonNull (list (nonNull (named "Int")))) (by decide) (by decide)
  refine ⟨h.1.mp (by simp [isBreakingChange, replaceable]), ?_, ?_⟩
  · intro hw
    exact absurd (h.2.mpr hw) (by simp [isBreakingChange, replaceable])
  · exact structural_change_safe_iff.2
      (.ofTypes "Query" [.object "Query" [("sizes",
        .link "NON_NULL" none (.link "LIST" none (.last "SCALAR" (some "Int"))))]])
      ⟨[⟨"Query", none, .object []
        [⟨"sizes", none, nonNull (list (named "Int")), [], false, none⟩]⟩], "Query", none, none⟩
      rfl _ (by decide)

end TypeRef

end SchemaHistory
