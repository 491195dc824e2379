import Mathlib.Data.String.Basic
import SchemaHistory.Files.Tree
import SchemaHistory.Proofs.Lists

namespace SchemaHistory.FileTree

/-- The entries of a directory as they are kept: by name, and each name once. -/
def Ordered (entries : Entries) : Prop :=
  entries.Pairwise fun a b => a.1 < b.1

theorem lookup_put (name : String) (tree : FileTree) (entries : Entries) (other : String) :
    (put name tree entries).lookup other
      = if other = name then some tree else entries.lookup other := by
  by_cases ho : other = name
  · subst ho
    rw [if_pos rfl]
    induction entries with
    | nil => exact List.lookup_cons_self
    | cons e entries ih =>
      obtain ⟨n, t⟩ := e
      rw [put]
      split
      · exact List.lookup_cons_self
      · rename_i hn
        split
        · exact List.lookup_cons_self
        · rw [lookup_skip (Ne.symm hn), ih]
  · rw [if_neg ho]
    induction entries with
    | nil => exact lookup_skip ho tree []
    | cons e entries ih =>
      obtain ⟨n, t⟩ := e
      rw [put]
      split
      · rename_i hn
        subst hn
        rw [lookup_skip ho, lookup_skip ho]
      · split
        · rw [lookup_skip ho]
        · rw [List.lookup_cons, List.lookup_cons, ih]

theorem put_mem {name : String} {tree : FileTree} {entries : Entries} {e : String × FileTree}
    (h : e ∈ put name tree entries) : e = (name, tree) ∨ e ∈ entries := by
  induction entries with
  | nil => exact .inl (List.mem_singleton.mp h)
  | cons f entries ih =>
    rw [put] at h
    split at h
    · rcases List.mem_cons.mp h with he | hm
      · exact .inl he
      · exact .inr (List.mem_cons_of_mem _ hm)
    · split at h
      · rcases List.mem_cons.mp h with he | hm
        · exact .inl he
        · exact .inr hm
      · rcases List.mem_cons.mp h with rfl | hm
        · exact .inr List.mem_cons_self
        · rcases ih hm with he | hm
          · exact .inl he
          · exact .inr (List.mem_cons_of_mem _ hm)

theorem put_ordered {name : String} {tree : FileTree} {entries : Entries} (h : Ordered entries) :
    Ordered (put name tree entries) := by
  induction entries with
  | nil => exact List.pairwise_singleton _ _
  | cons e entries ih =>
    obtain ⟨n, t⟩ := e
    obtain ⟨hn, hr⟩ := List.pairwise_cons.mp h
    rw [put]
    split
    · rename_i he
      subst he
      exact List.pairwise_cons.mpr ⟨hn, hr⟩
    · rename_i he
      split
      · rename_i hl
        refine List.pairwise_cons.mpr ⟨fun f hf => ?_, h⟩
        rcases List.mem_cons.mp hf with rfl | hf
        · exact hl
        · exact String.lt_trans hl (hn f hf)
      · rename_i hl
        refine List.pairwise_cons.mpr ⟨fun f hf => ?_, ih hr⟩
        rcases put_mem hf with rfl | hf
        · exact lt_of_le_of_ne (not_lt.mp hl) he
        · exact hn f hf

theorem remove_ordered {name : String} {entries : Entries} (h : Ordered entries) :
    Ordered (remove name entries) :=
  h.filter _

theorem lookup_remove (name : String) (entries : Entries) (other : String) :
    (remove name entries).lookup other = if other = name then none else entries.lookup other := by
  by_cases ho : other = name
  · subst ho
    rw [if_pos rfl]
    apply lookup_absent
    intro hm
    obtain ⟨e, he, rfl⟩ := List.mem_map.mp hm
    simp [remove] at he
  · rw [if_neg ho]
    induction entries with
    | nil => rfl
    | cons e entries ih =>
      obtain ⟨n, t⟩ := e
      by_cases hn : n = name
      · subst hn
        have hr : remove n ((n, t) :: entries) = remove n entries := by simp [remove]
        rw [hr, ih, lookup_skip ho]
      · have hr : remove name ((n, t) :: entries) = (n, t) :: remove name entries := by
          simp [remove, hn]
        rw [hr, List.lookup_cons, List.lookup_cons, ih]

/-- In a directory, to be an entry is to be found under its name. -/
theorem lookup_iff {entries : Entries} (h : Ordered entries) {name : String} {tree : FileTree} :
    entries.lookup name = some tree ↔ (name, tree) ∈ entries := by
  induction entries with
  | nil => simp
  | cons e entries ih =>
    obtain ⟨n, t⟩ := e
    obtain ⟨hn, hr⟩ := List.pairwise_cons.mp h
    rw [List.mem_cons, ← ih hr]
    by_cases ho : name = n
    · subst ho
      have hl : entries.lookup name ≠ some tree := by
        intro hl
        exact lt_irrefl _ (hn (name, tree) ((ih hr).mp hl))
      simp [hl, eq_comm]
    · simp [lookup_skip ho, ho]

theorem names_nodup {entries : Entries} (h : Ordered entries) : (entries.map Prod.fst).Nodup := by
  rw [List.Nodup, List.pairwise_map]
  exact h.imp fun hl => ne_of_lt hl

/-- A change below a name changes what stands under that name, and nothing beside it. -/
theorem update_child {change : Option FileTree → Option FileTree} {name : String} {path : Path}
    {tree changed : Option FileTree} (h : update? change (name :: path) tree = some changed) :
    ∃ inner, update? change path (tree.bind (child? name)) = some inner ∧
      ∀ other, changed.bind (child? other)
        = if other = name then inner else tree.bind (child? other) := by
  cases tree with
  | none =>
    obtain ⟨inner, hi, rfl⟩ := Option.map_eq_some_iff.mp h
    refine ⟨inner, hi, fun other => ?_⟩
    cases inner with
    | none => exact (ite_self _).symm
    | some t => exact lookup_put name t [] other
  | some tree =>
    cases tree with
    | file text => contradiction
    | directory entries =>
      obtain ⟨inner, hi, rfl⟩ := Option.map_eq_some_iff.mp h
      refine ⟨inner, hi, fun other => ?_⟩
      cases inner with
      | none => exact lookup_remove name entries other
      | some t => exact lookup_put name t entries other

end SchemaHistory.FileTree
