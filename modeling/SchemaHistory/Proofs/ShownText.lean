import SchemaHistory.Proofs.Reordering
import SchemaHistory.Proofs.Unchanged

namespace SchemaHistory

/-- Equal images under one function have equal images under another one that looks at less. -/
theorem map_congr_through {α β γ : Type} {f : α → β} {g : α → γ}
    (h : ∀ x y, f x = f y → g x = g y) {xs ys : List α} (he : xs.map f = ys.map f) :
    xs.map g = ys.map g := by
  induction xs generalizing ys with
  | nil =>
    obtain rfl := List.map_eq_nil_iff.mp he.symm
    rfl
  | cons x xs ih =>
    obtain ⟨y, ys, rfl, hy, hys⟩ := List.map_eq_cons_iff.mp he.symm
    rw [List.map_cons, List.map_cons, h x y hy.symm, ih hys.symm]

namespace Rearranged

variable {α β γ : Type} {xs : List α} {ys : List β}

theorem of_map_perm {f : α → γ} {g : β → γ} (h : (xs.map f).Perm (ys.map g)) :
    Rearranged (fun x y => f x = g y) xs ys := by
  have hy : List.Forall₂ (fun c y => c = g y) (ys.map g) ys :=
    List.forall₂_map_left_iff.mpr (List.forall₂_same.mpr fun _ _ => rfl)
  obtain ⟨zs, hz, hp⟩ := List.perm_comp_forall₂ h hy
  exact ⟨zs, List.forall₂_map_left_iff.mp hz, hp⟩

/-- Lists with the same images up to order have the same images once one of them is put into the
order of the other. -/
theorem exists_images {f : α → γ} {xs ys : List α} (h : (xs.map f).Perm (ys.map f)) :
    ∃ zs, ys.Perm zs ∧ xs.map f = zs.map f := by
  obtain ⟨zs, hz, hp⟩ := of_map_perm h
  exact ⟨zs, hp.symm, (forall₂_map_eq hz fun _ _ h => h.symm).symm⟩

/-- Where each match can be put into a form that fits exactly, the second list can be put into the
order of the first one. -/
theorem between {r : α → β → Prop} {p : β → γ → Prop} {q : α → γ → Prop} (h : Rearranged r xs ys)
    (hr : ∀ x y, r x y → ∃ z, p y z ∧ q x z) :
    ∃ zs, Rearranged p ys zs ∧ List.Forall₂ q xs zs := by
  obtain ⟨ws, hw, hperm⟩ := h
  have hz : ∃ zs, List.Forall₂ p ws zs ∧ List.Forall₂ q xs zs := by
    clear hperm
    induction hw with
    | nil => exact ⟨[], .nil, .nil⟩
    | cons hxy _ ih =>
      obtain ⟨z, hpz, hqz⟩ := hr _ _ hxy
      obtain ⟨zs, hps, hqs⟩ := ih
      exact ⟨z :: zs, .cons hpz hps, .cons hqz hqs⟩
  obtain ⟨zs, hp, hq⟩ := hz
  exact ⟨zs, List.perm_comp_forall₂ hperm.symm hp, hq⟩

/-- Rearranging some items and putting the others behind them rearranges them all. -/
theorem of_filter {r : α → α → Prop} (hr : ∀ x, r x x) {p : α → Bool} {xs ys : List α}
    (h : Rearranged r (xs.filter p) ys) : Rearranged r xs (ys ++ xs.filter fun x => !p x) := by
  obtain ⟨zs, hz, hperm⟩ := h
  have hboth := List.rel_append hz (List.forall₂_same.mpr fun x (_ : x ∈ xs.filter (!p ·)) => hr x)
  obtain ⟨ws, hw, hwp⟩ := List.perm_comp_forall₂ (List.filter_append_perm p xs).symm hboth
  exact ⟨ws, hw, hwp.trans (hperm.append_right _)⟩

end Rearranged

/-- Two fields that only differ in the order of arguments. -/
structure Field.Permuted (f g : Field) : Prop where
  args : f.args.Perm g.args
  rest : { f with args := g.args } = g

/-- Two bodies that only differ in the order of their parts. -/
inductive TypeBody.Permuted : TypeBody → TypeBody → Prop where
  | object {is js : List String} {fs gs : List Field} (hi : is.Perm js)
      (hf : Rearranged Field.Permuted fs gs) : Permuted (.object is fs) (.object js gs)
  | inputObject {as bs : List Argument} (ha : as.Perm bs) :
      Permuted (.inputObject as) (.inputObject bs)
  | interface {fs gs : List Field} (hf : Rearranged Field.Permuted fs gs) :
      Permuted (.interface fs) (.interface gs)
  | enum {vs ws : List EnumValue} (hv : vs.Perm ws) : Permuted (.enum vs) (.enum ws)
  | union {ms ns : List String} (hm : ms.Perm ns) : Permuted (.union ms) (.union ns)
  | scalar : Permuted .scalar .scalar

/-- Two types that only differ in the order of their parts. -/
structure TypeDef.Permuted (t u : TypeDef) : Prop where
  body : t.body.Permuted u.body
  rest : { t with body := u.body } = u

/-- Two models that only differ in the order of types and of what these consist of. -/
structure Model.Permuted (a b : Model) : Prop where
  types : Rearranged TypeDef.Permuted a.types b.types
  rest : { a with types := b.types } = b

theorem TypeBody.Permuted.refl (body : TypeBody) : body.Permuted body := by
  have hfields (fs : List Field) : Rearranged Field.Permuted fs fs :=
    .refl (fun f => ⟨.refl _, rfl⟩) fs
  cases body with
  | object is fs => exact .object (.refl is) (hfields fs)
  | inputObject as => exact .inputObject (.refl as)
  | interface fs => exact .interface (hfields fs)
  | enum vs => exact .enum (.refl vs)
  | union ms => exact .union (.refl ms)
  | scalar => exact .scalar

theorem TypeDef.Permuted.refl (t : TypeDef) : t.Permuted t :=
  ⟨.refl _, rfl⟩

theorem TypeDef.Permuted.name {t u : TypeDef} (h : t.Permuted u) : t.name = u.name := by
  rw [← h.rest]

theorem TypeDef.Permuted.kind {t u : TypeDef} (h : t.Permuted u) : t.kind = u.kind := by
  have hb := h.body
  obtain ⟨_, _, body⟩ := t
  obtain ⟨_, _, other⟩ := u
  cases hb <;> rfl

/-- What schema text shows of a field, in the order of the text. -/
def Field.line (f : Field) : String × List (String × String × Option String) × String :=
  (f.name, f.args.map Argument.shown, f.type.text)

/-- What schema text shows of two definitions is the same, in the order of the text. -/
structure TypeDef.SameLines (s t : TypeDef) : Prop where
  kind : s.kind = t.kind
  name : s.name = t.name
  links : s.links = t.links
  fields : s.fields.map Field.line = t.fields.map Field.line
  inputs : s.inputs.map Argument.shown = t.inputs.map Argument.shown
  values : s.values = t.values

/-- What schema text shows of two models is the same, in the order of the text. -/
structure Model.SameLines (a b : Model) : Prop where
  roots : a.roots = b.roots
  types : List.Forall₂ TypeDef.SameLines (a.types.filter isWritten) (b.types.filter isWritten)

section

open Sdl

theorem Argument.sdl_congr {a b : Argument} (h : a.shown = b.shown) : a.sdl = b.sdl := by
  obtain ⟨hn, hrest⟩ := Prod.mk.inj h
  obtain ⟨ht, hd⟩ := Prod.mk.inj hrest
  rw [Argument.sdl, Argument.sdl, hn, ht, hd]

theorem Field.sdl_congr {f g : Field} (h : f.line = g.line) : f.sdl .bare = g.sdl .bare := by
  obtain ⟨hn, hrest⟩ := Prod.mk.inj h
  obtain ⟨ha, ht⟩ := Prod.mk.inj hrest
  have hargs : f.args.map Argument.sdl = g.args.map Argument.sdl :=
    map_congr_through (fun _ _ => Argument.sdl_congr) ha
  have hempty : f.args.isEmpty = g.args.isEmpty := by
    rw [← List.isEmpty_map (f := Argument.shown), ha, List.isEmpty_map]
  simp only [Field.sdl, deprecation_hidden, hn, ht, hargs, hempty]

theorem TypeDef.sdl_congr {s t : TypeDef} (h : s.SameLines t) : s.sdl .bare = t.sdl .bare := by
  obtain ⟨hk, hn, hl, hf, hi, hv⟩ := h
  have hfields : s.fields.map (fieldLine .bare) = t.fields.map (fieldLine .bare) := by
    refine map_congr_through (fun f g h => ?_) hf
    rw [fieldLine, fieldLine, description_hidden, description_hidden]
    exact congrArg _ (Field.sdl_congr h)
  have hinputs : s.inputs.map (inputLine .bare) = t.inputs.map (inputLine .bare) := by
    refine map_congr_through (fun a b h => ?_) hi
    rw [inputLine, inputLine, description_hidden, description_hidden,
      Argument.sdl_congr h]
  rw [sdl, sdl, description_hidden, description_hidden]
  obtain ⟨_, _, body⟩ := s
  obtain ⟨_, _, other⟩ := t
  cases body <;> cases other <;> cases hk <;>
    dsimp only [links, fields, inputs, values] at hn hl hfields hinputs hv
  case enum.enum.refl =>
    have hlines := map_congr_through (g := valueLine .bare) (fun v w h => by
      rw [valueLine, valueLine, deprecation_hidden, deprecation_hidden, h, description_hidden,
        description_hidden]) hv
    simp only [bodySdl, hn, hlines]
  all_goals simp only [bodySdl, hn, hl, hfields, hinputs]

/-- Schema text without descriptions and deprecations tells nothing but the root types of operations
and what it shows of the definitions that are written. -/
theorem Model.sdl_congr {a b : Model} (h : a.SameLines b) : a.sdl .bare = b.sdl .bare := by
  have htypes : (a.types.filter isWritten).map (TypeDef.sdl .bare)
      = (b.types.filter isWritten).map (TypeDef.sdl .bare) :=
    (forall₂_map_eq h.types fun _ _ h => (TypeDef.sdl_congr h).symm).symm
  rw [sdl, sdl, schemaBlock, schemaBlock, h.roots, htypes]

end

/-- Fields that are shown alike have the same line once their arguments stand in one order. -/
theorem Field.line_of_shown {f g : Field} (h : f.shown = g.shown) :
    ∃ g', g.Permuted g' ∧ f.line = g'.line := by
  obtain ⟨hn, hrest⟩ := Prod.mk.inj h
  obtain ⟨ha, ht⟩ := Prod.mk.inj hrest
  obtain ⟨args, hp, hargs⟩ := Rearranged.exists_images (Multiset.coe_eq_coe.mp ha)
  refine ⟨{ g with args := args }, ⟨hp, rfl⟩, ?_⟩
  rw [line, line, hn, ht, hargs]

theorem Field.lines_of_shown {fs gs : List Field}
    (h : (fs.map Field.shown).Perm (gs.map Field.shown)) :
    ∃ gs', Rearranged Field.Permuted gs gs' ∧ fs.map Field.line = gs'.map Field.line := by
  obtain ⟨gs', hp, hl⟩ := (Rearranged.of_map_perm h).between fun _ _ => Field.line_of_shown
  exact ⟨gs', hp, (forall₂_map_eq hl fun _ _ h => h.symm).symm⟩

/-- Definitions that are shown alike have the same lines once their parts stand in one order. -/
theorem TypeDef.lines_of_shown {s t : TypeDef} (h : s.shown = t.shown) :
    ∃ u, t.Permuted u ∧ s.SameLines u := by
  obtain ⟨hk, hn, hl, hf, hi, hv⟩ := Shown.mk.inj h
  have hlinks := Multiset.coe_eq_coe.mp hl
  obtain ⟨fields, hfields, hlines⟩ := Field.lines_of_shown (Multiset.coe_eq_coe.mp hf)
  obtain ⟨inputs, hinputs, hshown⟩ := Rearranged.exists_images (Multiset.coe_eq_coe.mp hi)
  have hvalues := Multiset.coe_eq_coe.mp hv
  obtain ⟨name, _, body⟩ := s
  obtain ⟨_, description, other⟩ := t
  obtain rfl := hn
  cases body with
  | object is fs =>
    cases other <;> cases hk
    exact ⟨⟨name, description, .object is fields⟩, ⟨.object hlinks.symm hfields, rfl⟩,
      ⟨rfl, rfl, rfl, hlines, rfl, rfl⟩⟩
  | inputObject as =>
    cases other <;> cases hk
    exact ⟨⟨name, description, .inputObject inputs⟩, ⟨.inputObject hinputs, rfl⟩,
      ⟨rfl, rfl, rfl, rfl, hshown, rfl⟩⟩
  | interface fs =>
    cases other <;> cases hk
    exact ⟨⟨name, description, .interface fields⟩, ⟨.interface hfields, rfl⟩,
      ⟨rfl, rfl, rfl, hlines, rfl, rfl⟩⟩
  | enum vs =>
    cases other <;> cases hk
    obtain ⟨values, hp, hnames⟩ := Rearranged.exists_images hvalues
    exact ⟨⟨name, description, .enum values⟩, ⟨.enum hp, rfl⟩, ⟨rfl, rfl, rfl, rfl, rfl, hnames⟩⟩
  | union ms =>
    cases other <;> cases hk
    exact ⟨⟨name, description, .union ms⟩, ⟨.union hlinks.symm, rfl⟩,
      ⟨rfl, rfl, rfl, rfl, rfl, rfl⟩⟩
  | scalar =>
    cases other <;> cases hk
    exact ⟨⟨name, description, .scalar⟩, ⟨.scalar, rfl⟩, ⟨rfl, rfl, rfl, rfl, rfl, rfl⟩⟩

theorem Field.shown_of_line {f g : Field} (h : f.line = g.line) : f.shown = g.shown := by
  obtain ⟨hn, hrest⟩ := Prod.mk.inj h
  obtain ⟨ha, ht⟩ := Prod.mk.inj hrest
  rw [shown, shown, hn, ha, ht]

theorem TypeDef.SameLines.shown {s t : TypeDef} (h : s.SameLines t) : s.shown = t.shown := by
  have hfields : s.fields.map Field.shown = t.fields.map Field.shown :=
    map_congr_through (fun _ _ => Field.shown_of_line) h.fields
  exact shown_of_parts h.kind h.name (.of_eq h.links) (.of_eq hfields) (.of_eq h.inputs)
    (.of_eq h.values)

theorem Field.Permuted.shown {f g : Field} (h : f.Permuted g) : f.shown = g.shown := by
  have hargs := Multiset.coe_eq_coe.mpr (h.args.map Argument.shown)
  rw [Field.shown, Field.shown, hargs, ← h.rest]

theorem TypeDef.Permuted.shown {t u : TypeDef} (h : t.Permuted u) : t.shown = u.shown := by
  have hfields {fs gs : List Field} (hf : Rearranged Field.Permuted fs gs) :
      (fs.map Field.shown).Perm (gs.map Field.shown) :=
    hf.map_perm fun _ _ h => h.shown
  have hk := h.kind
  have hn := h.name
  have hb := h.body
  obtain ⟨_, _, body⟩ := t
  obtain ⟨_, _, other⟩ := u
  cases hb with
  | object hi hf => exact shown_of_parts hk hn hi (hfields hf) (.refl _) (.refl _)
  | inputObject ha =>
    exact shown_of_parts hk hn (.refl _) (.refl _) (ha.map Argument.shown) (.refl _)
  | interface hf => exact shown_of_parts hk hn (.refl _) (hfields hf) (.refl _) (.refl _)
  | enum hv => exact shown_of_parts hk hn (.refl _) (.refl _) (.refl _) (hv.map EnumValue.name)
  | union hm => exact shown_of_parts hk hn hm (.refl _) (.refl _) (.refl _)
  | scalar => exact shown_of_parts hk hn (.refl _) (.refl _) (.refl _) (.refl _)

namespace Model

variable {a b : Model}

theorem Permuted.shown (h : a.Permuted b) : a.shown = b.shown := by
  have hwritten : Rearranged TypeDef.Permuted (a.types.filter isWritten)
      (b.types.filter isWritten) :=
    h.types.filter fun t u htu => by rw [isWritten, isWritten, htu.kind, htu.name]
  have htypes := Multiset.coe_eq_coe.mpr (hwritten.map_perm fun _ _ h => h.shown)
  have hroots : a.roots = b.roots := by rw [← h.rest]; rfl
  rw [Model.shown, Model.shown, hroots, htypes]

theorem SameLines.shown (h : a.SameLines b) : a.shown = b.shown := by
  have htypes : (a.types.filter isWritten).map TypeDef.shown
      = (b.types.filter isWritten).map TypeDef.shown :=
    (forall₂_map_eq h.types fun _ _ h => h.shown.symm).symm
  rw [Model.shown, Model.shown, h.roots, htypes]

/-- What is shown of two models is the same just when their texts are, line by line, once the one
stands in the order of the other. -/
theorem shown_iff_lines : a.shown = b.shown ↔ ∃ c, b.Permuted c ∧ a.SameLines c := by
  constructor
  · intro h
    obtain ⟨hroots, hshown⟩ := Prod.mk.inj h
    obtain ⟨written, hp, hlines⟩ := (Rearranged.of_map_perm (Multiset.coe_eq_coe.mp hshown)).between
      fun _ _ => TypeDef.lines_of_shown
    -- What is not written may stand anywhere: it is put behind the rest.
    let rest := b.types.filter fun t => !isWritten t
    refine ⟨{ b with types := written ++ rest }, ⟨hp.of_filter TypeDef.Permuted.refl, rfl⟩,
      hroots, ?_⟩
    have hwritten : written.filter isWritten = written := by
      refine List.filter_eq_self.mpr fun u hu => ?_
      obtain ⟨t, ht, htu⟩ := hp.matched hu
      rw [isWritten, ← htu.kind, ← htu.name]
      exact (List.mem_filter.mp ht).2
    have hrest : rest.filter isWritten = [] := by simp [rest, List.filter_filter]
    change List.Forall₂ _ _ ((written ++ rest).filter isWritten)
    rw [List.filter_append, hwritten, hrest, List.append_nil]
    exact hlines
  · rintro ⟨c, hp, hl⟩
    exact hl.shown.trans hp.shown.symm

end Model

end SchemaHistory
