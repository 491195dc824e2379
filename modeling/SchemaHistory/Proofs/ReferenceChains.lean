import Mathlib.Data.List.Chain
import SchemaHistory.Proofs.References

namespace SchemaHistory

namespace Wrapper

theorem of_kind_iff {kind : String} {w : Wrapper} : ofKind? kind = some w ↔ w.kind = kind := by
  constructor
  · intro h
    unfold ofKind? at h
    split at h
    · rename_i hk
      cases h
      exact hk.symm
    · split at h
      · rename_i hk
        cases h
        exact hk.symm
      · contradiction
  · rintro rfl
    cases w <;> rfl

theorem of_kind_none_iff {kind : String} : ofKind? kind = none ↔ ∀ w : Wrapper, w.kind ≠ kind := by
  rw [Option.eq_none_iff_forall_ne_some]
  exact forall_congr' fun w => not_congr of_kind_iff

end Wrapper

namespace TypeRef

theorem wrappers_of_wrappers (ws : List Wrapper) (name : String) :
    (ofWrappers ws name).wrappers = ws := by
  induction ws with
  | nil => rfl
  | cons w ws ih => cases w <;> exact congrArg _ ih

/-- A reference is regular when no two wrappers next to each other are both non-null. -/
theorem regular_iff_chain {t : TypeRef} :
    t.Regular ↔ t.wrappers.IsChain fun v w => ¬(v = .nonNull ∧ w = .nonNull) := by
  induction t with
  | named name => simp [Regular, wrappers]
  | list t ih => simp [Regular, wrappers, List.isChain_cons, ih]
  | nonNull t ih =>
    rw [Regular, wrappers, List.isChain_cons, ih]
    cases t <;> simp [isNonNull, wrappers]

theorem wrap_ok {fault : RefFault} {w : Wrapper} {s t : TypeRef} (h : wrap? fault w s = .ok t) :
    t = wrap w s := by
  unfold wrap? at h
  split at h
  · contradiction
  · exact (Except.ok.inj h).symm

end TypeRef

namespace RefChain

/-- Where a chain leads: through its wrappers to the first entry of another kind, which has a
name. What stands behind that entry does not matter. -/
inductive Leads : RefChain → List Wrapper → String → Prop where
  | last {kind name : String} : (∀ w : Wrapper, w.kind ≠ kind) → name ≠ "" →
    Leads (last kind (some name)) [] name
  | entry {kind name : String} {inner : RefChain} : (∀ w : Wrapper, w.kind ≠ kind) → name ≠ "" →
    Leads (link kind (some name) inner) [] name
  | wrapper {w : Wrapper} {label : Option String} {inner : RefChain} {ws : List Wrapper}
    {name : String} : Leads inner ws name → Leads (link w.kind label inner) (w :: ws) name

theorem leaf_ok_iff {kind : String} {label : Option String} {t : TypeRef} :
    leaf kind label = .ok t ↔ ∃ name, label = some name ∧ name ≠ "" ∧ t = .named name := by
  unfold leaf
  split
  · simp
  · simp
  · rename_i name hne
    constructor
    · rintro ⟨⟩
      exact ⟨name, rfl, hne, rfl⟩
    · rintro ⟨_, ⟨⟩, _, rfl⟩
      rfl

theorem resolve_wrapper (w : Wrapper) (label : Option String) (inner : RefChain) :
    (link w.kind label inner).resolve = inner.resolve >>= TypeRef.wrap? .nestedNonNull w := by
  rw [resolve, Wrapper.of_kind_iff.mpr rfl]
  cases inner.resolve <;> rfl

/-- A chain that leads to a name is the reference to that name, unless a mark is doubled. -/
theorem Leads.resolve_eq {chain : RefChain} {ws : List Wrapper} {name : String}
    (h : chain.Leads ws name) :
    chain.resolve = if (TypeRef.ofWrappers ws name).Regular then .ok (.ofWrappers ws name)
      else .error .nestedNonNull := by
  induction h with
  | last hk hn =>
    rw [resolve, Wrapper.of_kind_none_iff.mpr hk]
    exact leaf_ok_iff.mpr ⟨_, rfl, hn, rfl⟩
  | entry hk hn =>
    rw [resolve, Wrapper.of_kind_none_iff.mpr hk]
    exact leaf_ok_iff.mpr ⟨_, rfl, hn, rfl⟩
  | wrapper _ ih =>
    rw [resolve_wrapper, ih, TypeRef.wrap_checked]
    rfl

theorem leads_of_resolve {chain : RefChain} {t : TypeRef} (h : chain.resolve = .ok t) :
    chain.Leads t.wrappers t.baseName := by
  induction chain generalizing t with
  | last kind label =>
    unfold resolve at h
    split at h
    · contradiction
    · rename_i hk
      obtain ⟨name, rfl, hn, rfl⟩ := leaf_ok_iff.mp h
      exact .last (Wrapper.of_kind_none_iff.mp hk) hn
  | link kind label inner ih =>
    unfold resolve at h
    split at h
    · rename_i w hk
      obtain rfl := Wrapper.of_kind_iff.mp hk
      split at h
      · rename_i s hs
        rw [TypeRef.wrap_ok h]
        cases w <;> exact .wrapper (ih hs)
      · contradiction
    · rename_i hk
      obtain ⟨name, rfl, hn, rfl⟩ := leaf_ok_iff.mp h
      exact .entry (Wrapper.of_kind_none_iff.mp hk) hn

/-- The chain of wrappers around a chain. Wrappers have no name. -/
def wrapped (ws : List Wrapper) (inner : RefChain) : RefChain :=
  ws.foldr (fun w chain => .link w.kind none chain) inner

theorem to_chain_wrapped (kindOf : String → String) (t : TypeRef) :
    t.toChain kindOf = wrapped t.wrappers (.last (kindOf t.baseName) (some t.baseName)) := by
  induction t with
  | named name => rfl
  | list t ih => exact congrArg (link _ none) ih
  | nonNull t ih => exact congrArg (link _ none) ih

theorem to_chain_leads {kindOf : String → String} (hk : ∀ name, ∀ w : Wrapper, w.kind ≠ kindOf name)
    {t : TypeRef} (hn : t.baseName ≠ "") : (t.toChain kindOf).Leads t.wrappers t.baseName := by
  induction t with
  | named name => exact .last (hk name) hn
  | list t ih => exact .wrapper (ih hn)
  | nonNull t ih => exact .wrapper (ih hn)

theorem resolve_to_chain {kindOf : String → String}
    (hk : ∀ name, ∀ w : Wrapper, w.kind ≠ kindOf name) {t : TypeRef} (ht : t.Regular)
    (hn : t.baseName ≠ "") : (t.toChain kindOf).resolve = .ok t := by
  rw [(to_chain_leads hk hn).resolve_eq, TypeRef.of_wrappers_self, if_pos ht]

/-- A chain has a reference just when it leads through wrappers to a name and no non-null mark is
right inside another; written as a chain again, the reference is these wrappers around that name.
A regular reference with a name comes back from the chain that it is written as. Failures tell the
place. -/
theorem resolve_exact (chain : RefChain) (location : String) :
    ((∃ t, chain.resolveAt location = .ok t) ↔ ∃ ws name, chain.Leads ws name ∧
      ws.IsChain fun v w => ¬(v = .nonNull ∧ w = .nonNull)) ∧
    (∀ t, chain.resolveAt location = .ok t → t.Regular ∧ ∃ ws name, chain.Leads ws name ∧
      ∀ kindOf : String → String,
        t.toChain kindOf = wrapped ws (.last (kindOf name) (some name))) ∧
    (∀ f, chain.resolveAt location = .error f →
      ∃ fault : RefFault, f = .malformedTypeRef location fault.message) ∧
    ∀ t : TypeRef, t.Regular → t.baseName ≠ "" → ∀ kindOf : String → String,
      (∀ name, kindOf name ≠ "LIST" ∧ kindOf name ≠ "NON_NULL") →
      (t.toChain kindOf).resolveAt location = .ok t := by
  simp only [resolve_at_iff]
  refine ⟨⟨fun h => ?_, fun h => ?_⟩, fun t h => ?_, fun f h => RefFault.located h, ?_⟩
  · obtain ⟨t, h⟩ := h
    exact ⟨t.wrappers, t.baseName, leads_of_resolve h,
      TypeRef.regular_iff_chain.mp (resolve_regular h)⟩
  · obtain ⟨ws, name, hl, hc⟩ := h
    have hr : (TypeRef.ofWrappers ws name).Regular := by
      rwa [TypeRef.regular_iff_chain, TypeRef.wrappers_of_wrappers]
    exact ⟨_, hl.resolve_eq.trans (if_pos hr)⟩
  · exact ⟨resolve_regular h, t.wrappers, t.baseName, leads_of_resolve h,
      fun kindOf => to_chain_wrapped kindOf t⟩
  · intro t ht hn kindOf hk
    refine resolve_to_chain (fun name w => ?_) ht hn
    cases w with
    | list => exact (hk name).1.symm
    | nonNull => exact (hk name).2.symm

/-- A marked list of numbers, given as a chain and written as one, and a chain that ends too
early. -/
theorem resolve_exact_sizes :
    (∃ t, (link "NON_NULL" none (link "LIST" (some "sizes")
      (last "SCALAR" (some "Int")))).resolveAt "Query.sizes" = .ok t) ∧
    (∃ fault : RefFault, RefChain.resolveAt "Query.sizes" (link "LIST" none (last "NON_NULL" none))
      = .error (.malformedTypeRef "Query.sizes" fault.message)) ∧
    ((TypeRef.nonNull (.list (.named "Int"))).toChain fun _ => "SCALAR").resolveAt "Query.sizes"
      = .ok (.nonNull (.list (.named "Int"))) := by
  have hleads : (link "NON_NULL" none (link "LIST" (some "sizes")
      (last "SCALAR" (some "Int")))).Leads [.nonNull, .list] "Int" :=
    @Leads.wrapper .nonNull _ _ _ _ (@Leads.wrapper .list _ _ _ _
      (.last (fun w => by cases w <;> decide) (by decide)))
  refine ⟨(resolve_exact _ _).1.mpr ⟨_, _, hleads, by decide⟩, ?_, ?_⟩
  · obtain ⟨fault, h⟩ := (resolve_exact (link "LIST" none (last "NON_NULL" none))
      "Query.sizes").2.2.1 _ rfl
    exact ⟨fault, congrArg _ h⟩
  · exact (resolve_exact (last "SCALAR" none) "Query.sizes").2.2.2 _ (by decide) (by decide)
      (fun _ => "SCALAR") fun _ => by decide

end RefChain

end SchemaHistory
