import Mathlib.Data.List.TakeWhile

namespace SchemaHistory

/-- A run of characters ends where the rest of a text does not go on with it. -/
theorem span_append {p : Char → Bool} {cs rest : List Char} (hc : ∀ c ∈ cs, p c = true)
    (hr : ∀ c ∈ rest.head?, p c = false) :
    (cs ++ rest).takeWhile p = cs ∧ (cs ++ rest).dropWhile p = rest := by
  rw [List.takeWhile_append_of_pos hc, List.dropWhile_append_of_pos hc]
  cases rest with
  | nil => simp
  | cons c cs => simp [hr c rfl]

/-- Dropping characters at the end takes away copies of one character. -/
theorem strip_end (d : Char) (cs : List Char) : ∃ k,
    cs = (cs.reverse.dropWhile (· == d)).reverse ++ List.replicate k d := by
  refine ⟨(cs.reverse.takeWhile (· == d)).length, ?_⟩
  have hr : cs.reverse.takeWhile (· == d)
      = List.replicate (cs.reverse.takeWhile (· == d)).length d := by
    refine List.eq_replicate_iff.mpr ⟨rfl, ?_⟩
    intro c hc
    simpa using List.mem_takeWhile_imp hc
  rw [← List.reverse_replicate, ← hr, ← List.reverse_append, List.takeWhile_append_dropWhile,
    List.reverse_reverse]

/-- What is tested of each item holds of all of them. Of a type with finitely many values, `decide`
would go through the values instead of the items. -/
theorem forall_of_all {α : Type} {P : α → Prop} [DecidablePred P] {as : List α}
    (h : as.all (fun a => decide (P a)) = true) : ∀ a ∈ as, P a :=
  fun a ha => of_decide_eq_true (List.all_eq_true.mp h a ha)

theorem lookup_skip {α : Type} {name other : String} (h : other ≠ name) (a : α)
    (entries : List (String × α)) :
    List.lookup other ((name, a) :: entries) = entries.lookup other := by
  rw [List.lookup_cons, beq_false_of_ne h]

theorem lookup_absent {α : Type} {name : String} {entries : List (String × α)}
    (h : name ∉ entries.map Prod.fst) : entries.lookup name = none := by
  rw [List.lookup_eq_none_iff]
  intro e he
  rw [bne_iff_ne]
  intro heq
  subst heq
  exact h (List.mem_map_of_mem he)

theorem mem_of_lookup {α : Type} {name : String} {a : α} {entries : List (String × α)}
    (h : entries.lookup name = some a) : (name, a) ∈ entries := by
  obtain ⟨front, back, rfl, _⟩ := List.lookup_eq_some_iff.mp h
  exact List.mem_append_right _ List.mem_cons_self

/-- Sorting puts a list in order where its items can be compared. -/
theorem pairwise_sorted {α : Type} {p : α → Prop} {r : α → α → Bool} {l : List α}
    (hl : ∀ a ∈ l, p a) (trans : ∀ a b c, p a → p b → p c → r a b → r b c → r a c)
    (total : ∀ a b, p a → p b → r a b || r b a) : (l.mergeSort r).Pairwise (r · ·) := by
  have hs := @List.pairwise_mergeSort { a // p a } (fun a b => r a.1 b.1)
    (fun a b c => trans a.1 b.1 c.1 a.2 b.2 c.2) (fun a b => total a.1 b.1 a.2 b.2)
    (l.attachWith p hl)
  have hm : ((l.attachWith p hl).mergeSort fun a b => r a.1 b.1).map Subtype.val
      = l.mergeSort r := by
    rw [List.map_mergeSort (s := r) (f := Subtype.val) fun _ _ _ _ => rfl,
      List.attachWith_map_subtype_val]
  rw [← hm]
  exact List.pairwise_map.mpr hs

/-- A list that ascends is determined by its items. -/
theorem ascending_determined {α : Type} {r : α → α → Prop} {l l' : List α} (hl : l.Pairwise r)
    (hl' : l'.Pairwise r) (hm : ∀ a, a ∈ l ↔ a ∈ l')
    (hr : ∀ a b, a ∈ l → b ∈ l → r a b → ¬r b a) : l = l' := by
  have hne : ∀ {a b}, a ∈ l → r a b → a ≠ b := by
    rintro a b ha hab rfl
    exact hr a a ha ha hab hab
  have hn : l.Nodup := hl.imp_of_mem fun ha _ hab => hne ha hab
  have hn' : l'.Nodup := hl'.imp_of_mem fun ha _ hab => hne ((hm _).mpr ha) hab
  refine ((List.perm_ext_iff_of_nodup hn hn').mpr hm).eq_of_pairwise ?_ hl hl'
  exact fun a b ha hb hab hba => absurd hba (hr a b ha ((hm b).mpr hb) hab)

/-- What stands in a list with one more item at its end. -/
theorem get_concat_iff {α : Type} {xs : List α} {x y : α} {i : Nat} :
    (xs ++ [x])[i]? = some y ↔ xs[i]? = some y ∨ i = xs.length ∧ x = y := by
  rw [List.getElem?_append, List.getElem?_singleton]
  by_cases h : i < xs.length
  · rw [if_pos h]
    have hne : i ≠ xs.length := by omega
    simp [hne]
  · have hn : xs[i]? = none := List.getElem?_eq_none (by omega)
    have hi : i - xs.length = 0 ↔ i = xs.length := by omega
    rw [if_neg h, hn]
    simp [hi]

end SchemaHistory
