import Mathlib.Data.List.Perm.Basic
import SchemaHistory.Proofs.Building

namespace SchemaHistory

/-- The second list has a match for each item of the first one, in any order, and nothing else. -/
def Rearranged {α β : Type} (r : α → β → Prop) (xs : List α) (ys : List β) : Prop :=
  ∃ zs, List.Forall₂ r xs zs ∧ zs.Perm ys

namespace Rearranged

variable {α β γ δ : Type} {r : α → β → Prop} {xs : List α} {ys : List β}

theorem flip (h : Rearranged r xs ys) : Rearranged (fun y x => r x y) ys xs := by
  obtain ⟨zs, hr, hp⟩ := h
  exact List.perm_comp_forall₂ hp.symm hr.flip

theorem mono {q : α → β → Prop} (h : Rearranged r xs ys) (hq : ∀ x y, r x y → q x y) :
    Rearranged q xs ys := by
  obtain ⟨zs, hr, hp⟩ := h
  exact ⟨zs, hr.imp hq, hp⟩

theorem of_perm {xs ys : List α} (h : xs.Perm ys) : Rearranged (· = ·) xs ys :=
  ⟨xs, List.forall₂_refl xs, h⟩

theorem refl {r : α → α → Prop} (h : ∀ x, r x x) (xs : List α) : Rearranged r xs xs :=
  ⟨xs, List.forall₂_same.mpr fun x _ => h x, .refl xs⟩

/-- Every item of the second list has a match in the first one. -/
theorem matched (h : Rearranged r xs ys) {y : β} (hy : y ∈ ys) : ∃ x ∈ xs, r x y := by
  obtain ⟨zs, hr, hp⟩ := h
  exact forall₂_exists_left hr.flip (hp.mem_iff.mpr hy)

theorem map_perm (h : Rearranged r xs ys) {f : α → γ} {g : β → γ} (he : ∀ x y, r x y → f x = g y) :
    (xs.map f).Perm (ys.map g) := by
  obtain ⟨zs, hr, hp⟩ := h
  rw [← forall₂_map_eq hr fun x y h => (he x y h).symm]
  exact hp.map g

theorem filter (h : Rearranged r xs ys) {p : α → Bool} {q : β → Bool}
    (he : ∀ x y, r x y → p x = q y) : Rearranged r (xs.filter p) (ys.filter q) := by
  obtain ⟨zs, hr, hp⟩ := h
  exact ⟨zs.filter q, List.rel_filter (fun x y h => Bool.eq_iff_iff.mp (he x y h)) hr, hp.filter q⟩

theorem flatMap_perm (h : Rearranged r xs ys) {f : α → List γ} {g : β → List γ}
    (he : ∀ x y, r x y → (f x).Perm (g y)) : (xs.flatMap f).Perm (ys.flatMap g) := by
  obtain ⟨zs, hr, hp⟩ := h
  refine List.Perm.trans ?_ (hp.flatMap_right g)
  clear hp
  induction hr with
  | nil => exact .nil
  | cons hxy _ ih => exact (he _ _ hxy).append ih

/-- What is made of matching items matches. -/
theorem made {r : α → α → Prop} {makes : α → γ → Prop} {q : γ → γ → Prop} {xs ys : List α}
    {cs ds : List γ} (h : Rearranged r xs ys) (hx : List.Forall₂ makes xs cs)
    (hy : List.Forall₂ makes ys ds)
    (hq : ∀ x y c d, r x y → makes x c → makes y d → q c d) : Rearranged q cs ds := by
  obtain ⟨zs, hr, hp⟩ := h
  -- What is made of `ys` in the order of `zs` stands beside `cs`, item by item.
  obtain ⟨es, hz, he⟩ := List.perm_comp_forall₂ hp hy
  refine ⟨es, ?_, he⟩
  clear hp hy he
  induction hr generalizing cs es with
  | nil =>
    cases hx
    cases hz
    exact .nil
  | cons hxy _ ih =>
    cases hx with
    | cons hc hx =>
      cases hz with
      | cons hd hz => exact .cons (hq _ _ _ _ hxy hc hd) (ih hx _ hz)

end Rearranged

/-- Two members are both missing, both null, or have values that match. -/
inductive Slot.Both {α : Type} (r : α → α → Prop) : Slot α → Slot α → Prop where
  | absent : Both r absent absent
  | null : Both r null null
  | filled {x y : α} : r x y → Both r (filled x) (filled y)

namespace Slot.Both

variable {α : Type}

theorem symm {r : α → α → Prop} (hr : ∀ x y, r x y → r y x) {s t : Slot α} (h : Both r s t) :
    Both r t s := by
  cases h with
  | absent => exact .absent
  | null => exact .null
  | filled h => exact .filled (hr _ _ h)

theorem items_perm {s t : Slot (List α)} (h : Both List.Perm s t) : s.items.Perm t.items := by
  cases h with
  | filled h => exact h
  | _ => exact .nil

theorem items_rearranged {r : α → α → Prop} {s t : Slot (List α)} (h : Both (Rearranged r) s t) :
    Rearranged r s.items t.items := by
  cases h with
  | filled h => exact h
  | _ => exact ⟨[], .nil, .nil⟩

end Slot.Both

namespace Introspection

/-- Two fields that only differ in the order of arguments. -/
structure Field.Reordered (f g : Field) : Prop where
  args : f.args.Both List.Perm g.args
  rest : { f with args := g.args } = g

/-- Two entries that only differ in the order of fields, arguments, input fields and values. -/
structure TypeEntry.Reordered (t u : TypeEntry) : Prop where
  fields : t.fields.Both (Rearranged Field.Reordered) u.fields
  inputFields : t.inputFields.Both List.Perm u.inputFields
  enumValues : t.enumValues.Both List.Perm u.enumValues
  rest :
    { t with fields := u.fields, inputFields := u.inputFields, enumValues := u.enumValues } = u

/-- Two schemas that only differ in the order of types and of what these consist of. -/
structure Schema.Reordered (s t : Schema) : Prop where
  types : Rearranged TypeEntry.Reordered s.types t.types
  rest : { s with types := t.types } = t

theorem Field.Reordered.symm {f g : Field} (h : f.Reordered g) : g.Reordered f where
  args := h.args.symm fun _ _ => List.Perm.symm
  rest := by rw [← h.rest]

theorem TypeEntry.Reordered.symm {t u : TypeEntry} (h : t.Reordered u) : u.Reordered t where
  fields := h.fields.symm fun _ _ h => h.flip.mono fun _ _ h => h.symm
  inputFields := h.inputFields.symm fun _ _ => List.Perm.symm
  enumValues := h.enumValues.symm fun _ _ => List.Perm.symm
  rest := by rw [← h.rest]

theorem Schema.Reordered.symm {s t : Schema} (h : s.Reordered t) : t.Reordered s where
  types := h.types.flip.mono fun _ _ h => h.symm
  rest := by rw [← h.rest]

theorem Field.Reordered.name {f g : Field} (h : f.Reordered g) : f.name = g.name := by
  rw [← h.rest]

theorem TypeEntry.Reordered.name {t u : TypeEntry} (h : t.Reordered u) : t.name = u.name := by
  rw [← h.rest]

theorem TypeEntry.Reordered.kind {t u : TypeEntry} (h : t.Reordered u) : t.kind = u.kind := by
  rw [← h.rest]

theorem own_entries_rearranged {ts us : List TypeEntry} (h : Rearranged TypeEntry.Reordered ts us) :
    Rearranged TypeEntry.Reordered (ownEntries ts) (ownEntries us) :=
  h.filter fun _ _ h => by rw [h.name]

theorem WellFormedInputs.reordered {vs ws : List InputValue} (h : WellFormedInputs vs)
    (hp : vs.Perm ws) : WellFormedInputs ws where
  types w hw := h.types w (hp.mem_iff.mpr hw)
  distinct := (hp.map InputValue.name).nodup_iff.mp h.distinct

theorem Field.WellFormed.reordered {f g : Field} (h : f.WellFormed) (hr : f.Reordered g) :
    g.WellFormed where
  type := congrArg Field.type hr.rest ▸ h.type
  args := h.args.reordered hr.args.items_perm

theorem WellFormedFields.reordered {fs gs : List Field} (h : WellFormedFields fs)
    (hr : Rearranged Field.Reordered fs gs) : WellFormedFields gs where
  fields g hg := by
    obtain ⟨f, hf, hfg⟩ := hr.matched hg
    exact (h.fields f hf).reordered hfg
  distinct := (hr.map_perm fun _ _ h => h.name).nodup_iff.mp h.distinct

theorem TypeEntry.WellFormedAs.reordered {t u : TypeEntry} {kind : TypeKind}
    (h : t.WellFormedAs kind) (hr : t.Reordered u) : u.WellFormedAs kind := by
  cases kind with
  | object => exact WellFormedFields.reordered h hr.fields.items_rearranged
  | interface => exact WellFormedFields.reordered h hr.fields.items_rearranged
  | inputObject => exact WellFormedInputs.reordered h hr.inputFields.items_perm
  | enum => exact (hr.enumValues.items_perm.map EnumValue.name).nodup_iff.mp h
  | union => trivial
  | scalar => trivial

theorem TypeEntry.WellFormed.reordered {t u : TypeEntry} (h : t.WellFormed) (hr : t.Reordered u) :
    u.WellFormed := by
  obtain ⟨kind, hk, hw⟩ := h
  exact ⟨kind, hk.trans hr.kind, hw.reordered hr⟩

theorem Schema.WellFormed.reordered {s t : Schema} (h : s.WellFormed) (hr : s.Reordered t) :
    t.WellFormed := by
  have hown := own_entries_rearranged hr.types
  have hrest := hr.rest
  have hquery := congrArg Schema.queryType hrest
  have hmutation := congrArg Schema.mutationType hrest
  have hsubscription := congrArg Schema.subscriptionType hrest
  dsimp only at hquery hmutation hsubscription
  refine ⟨hquery ▸ h.query, (hown.map_perm fun _ _ h => h.name).nodup_iff.mp h.distinct, ?_, ?_⟩
  · intro u hu
    obtain ⟨t, ht, htu⟩ := hown.matched hu
    exact (h.entries t ht).reordered htu
  · rw [← hquery, ← hmutation, ← hsubscription]
    intro root hroot name hname
    obtain ⟨u, hu, hn, hk⟩ := h.roots root hroot name hname
    obtain ⟨v, hv, huv⟩ := hown.flip.matched hu
    exact ⟨v, hv, huv.name.symm.trans hn, huv.kind.symm.trans hk⟩

end Introspection

end SchemaHistory
