import Mathlib.Data.List.TakeDrop
import SchemaHistory.Proofs.Directories

namespace SchemaHistory.Key

/-- Text that no rewriting of keys finds anything to do in. -/
structure Plain (cs : List Char) : Prop where
  safe : ∀ c ∈ cs, isSafe c = true
  sparse : ¬['_', '_', '_'] <:+: cs

theorem safe_of_mem {c d : Char} (h : d ∈ safeChars c) : isSafe d = true := by
  unfold safeChars at h
  split at h
  · rename_i hs
    rwa [List.mem_singleton.mp h]
  · have hd : d = '_' := by
      split at h
      · simpa using h
      · exact List.eq_of_mem_replicate h
    rw [hd]
    rfl

theorem safe_chars_safe {c : Char} (h : isSafe c = true) : safeChars c = [c] :=
  if_pos h

theorem flat_map_safe {cs : List Char} (h : ∀ c ∈ cs, isSafe c = true) :
    cs.flatMap safeChars = cs := by
  induction cs with
  | nil => rfl
  | cons c cs ih =>
    obtain ⟨hc, hcs⟩ := List.forall_mem_cons.mp h
    rw [List.flatMap_cons, safe_chars_safe hc, ih hcs]
    rfl

/-- What is left has no run of three underscores, even behind those that were counted before. -/
theorem squeeze_sparse {run : Nat} (hr : run ≤ 2) (cs : List Char) :
    ¬['_', '_', '_'] <:+: List.replicate run '_' ++ squeeze run cs := by
  induction cs generalizing run with
  | nil =>
    intro h
    have hl := h.length_le
    simp [squeeze] at hl
    omega
  | cons c cs ih =>
    rw [squeeze]
    split
    · split
      · have hs := @ih (run + 1) (by omega)
        rwa [List.replicate_succ', List.append_assoc] at hs
      · exact ih hr
    · rename_i hc
      have hs := @ih 0 (by omega)
      simp only [List.replicate_zero, List.nil_append] at hs
      obtain rfl | rfl | rfl : run = 0 ∨ run = 1 ∨ run = 2 := by omega
      · simp [List.infix_cons_iff, Ne.symm hc, hs]
      · simp [List.infix_cons_iff, Ne.symm hc, hs]
      · simp [List.replicate_succ, List.infix_cons_iff, Ne.symm hc, hs]

theorem squeeze_self {run : Nat} {cs : List Char}
    (h : ¬['_', '_', '_'] <:+: List.replicate run '_' ++ cs) : squeeze run cs = cs := by
  induction cs generalizing run with
  | nil => rfl
  | cons c cs ih =>
    rw [squeeze]
    split
    · rename_i hc
      subst hc
      split
      · rw [ih]
        rwa [List.replicate_succ', List.append_assoc]
      · rename_i hr
        exfalso
        apply h
        refine ⟨List.replicate (run - 2) '_', cs, ?_⟩
        obtain ⟨k, rfl⟩ := Nat.exists_eq_add_of_le (not_lt.mp hr)
        simp [Nat.add_comm 2 k, List.replicate_add]
    · rw [ih]
      simp only [List.replicate_zero, List.nil_append]
      exact fun hs => h (hs.trans ((List.suffix_cons c cs).trans (List.suffix_append _ _)).isInfix)

theorem Plain.take {cs : List Char} (h : Plain cs) (n : Nat) : Plain (cs.take n) where
  safe c hc := h.safe c (List.mem_of_mem_take hc)
  sparse hs := h.sparse (hs.trans (List.take_prefix n cs).isInfix)

/-- Behind an underscore, dots make no run of underscores. -/
theorem plain_dots (n : Nat) : Plain ('_' :: List.replicate n '.') := by
  have hu : '_' ∉ List.replicate n '.' := by simp
  constructor
  · intro c hc
    rcases List.mem_cons.mp hc with rfl | hd
    · rfl
    · rw [List.eq_of_mem_replicate hd]
      rfl
  · intro hs
    have hc := hs.sublist.count_le '_'
    simp [List.count_eq_zero_of_not_mem hu] at hc

/-- The name of a directory before it may get an underscore in front. -/
def cutChars (key : List Char) : List Char :=
  (squeeze 0 ((withoutScheme key).flatMap safeChars)).take longest

theorem plain_cut (key : List Char) : Plain (cutChars key) := by
  refine Plain.take ⟨fun c hc => ?_, squeeze_sparse (Nat.zero_le 2) _⟩ longest
  rcases squeeze_mem hc with rfl | hm
  · rfl
  · obtain ⟨d, _, hd⟩ := List.mem_flatMap.mp hm
    exact safe_of_mem hd

/-- A name is cut text with something else than dots in it, or an underscore and dots. -/
theorem name_cases (key : List Char) :
    nameChars key = cutChars key ∧ (∃ c ∈ cutChars key, c ≠ '.') ∨
    ∃ n ≤ longest, cutChars key = List.replicate n '.' ∧
      nameChars key = '_' :: List.replicate n '.' := by
  have hn : nameChars key
      = if (cutChars key).all (· == '.') then '_' :: cutChars key else cutChars key := rfl
  rw [hn]
  split
  · rename_i h
    have hd : cutChars key = List.replicate (cutChars key).length '.' :=
      List.eq_replicate_iff.mpr ⟨rfl, by simpa using h⟩
    exact .inr ⟨_, List.length_take_le _ _, hd, congrArg _ hd⟩
  · rename_i h
    exact .inl ⟨rfl, by simpa using h⟩

theorem plain_name (key : List Char) : Plain (nameChars key) := by
  rcases name_cases key with ⟨h, _⟩ | ⟨n, _, _, h⟩
  · rw [h]
    exact plain_cut key
  · rw [h]
    exact plain_dots n

theorem without_scheme_self {cs : List Char} (h : '/' ∉ cs) : withoutScheme cs = cs := by
  unfold withoutScheme
  split
  · rename_i hp
    exact absurd ((List.isPrefixOf_iff_prefix.mp hp).subset (by simp)) h
  · split
    · rename_i hp
      exact absurd ((List.isPrefixOf_iff_prefix.mp hp).subset (by simp)) h
    · rfl

/-- Plain text with something else than dots in it is cut to the length of names, and that is
all. -/
theorem name_plain {cs : List Char} (h : Plain cs) (hd : ∃ c ∈ cs.take longest, c ≠ '.') :
    nameChars cs = cs.take longest := by
  have hs : '/' ∉ cs := fun hm => absurd (h.safe _ hm) (by decide)
  have hcut : cutChars cs = cs.take longest := by
    rw [cutChars, without_scheme_self hs, flat_map_safe h.safe, @squeeze_self 0 cs h.sparse]
  rcases name_cases cs with ⟨hn, _⟩ | ⟨n, _, hdots, _⟩
  · rw [hn, hcut]
  · obtain ⟨c, hc, hne⟩ := hd
    rw [← hcut, hdots] at hc
    exact absurd (List.eq_of_mem_replicate hc) hne

/-- As a key, a name is only cut. -/
theorem name_of_name (key : List Char) :
    nameChars (nameChars key) = (nameChars key).take longest := by
  apply name_plain (plain_name key)
  rcases name_cases key with ⟨hn, hd⟩ | ⟨n, _, _, hn⟩
  · have ht : (cutChars key).take longest = cutChars key :=
      List.take_of_length_le (List.length_take_le _ _)
    rwa [hn, ht]
  · rw [hn]
    exact ⟨'_', List.mem_cons_self, by decide⟩

/-- A character that is no dot is written without a dot. -/
theorem safe_chars_head {c : Char} (h : c ≠ '.') : ∃ d ds, safeChars c = d :: ds ∧ d ≠ '.' := by
  unfold safeChars
  split
  · exact ⟨c, [], rfl, h⟩
  · split
    · exact ⟨'_', ['_'], rfl, by decide⟩
    · unfold Text.unitsOf
      split
      · exact ⟨'_', [], rfl, by decide⟩
      · exact ⟨'_', ['_'], rfl, by decide⟩

theorem squeeze_head (c : Char) (cs : List Char) : ∃ ds, squeeze 0 (c :: cs) = c :: ds := by
  rw [squeeze]
  split
  · rename_i hc
    subst hc
    exact ⟨_, if_pos (by decide)⟩
  · exact ⟨_, rfl⟩

/-- Dots in front stay as they are, and no others get there. -/
theorem dots_in_front (n : Nat) (cs : List Char) :
    List.replicate n '.' <+: squeeze 0 (cs.flatMap safeChars) ↔ List.replicate n '.' <+: cs := by
  induction n generalizing cs with
  | zero => simp
  | succ n ih =>
    cases cs with
    | nil => rfl
    | cons c cs =>
      by_cases hc : c = '.'
      · subst hc
        have hs : squeeze 0 (('.' :: cs).flatMap safeChars)
            = '.' :: squeeze 0 (cs.flatMap safeChars) := rfl
        rw [hs, List.replicate_succ, List.cons_prefix_cons, List.cons_prefix_cons, ih]
      · obtain ⟨d, ds, hd, hne⟩ := safe_chars_head hc
        obtain ⟨es, he⟩ := squeeze_head d (ds ++ cs.flatMap safeChars)
        rw [List.flatMap_cons, hd, List.cons_append, he, List.replicate_succ,
          List.cons_prefix_cons, List.cons_prefix_cons]
        simp [Ne.symm hc, Ne.symm hne]

/-- A key that begins with as many dots as a name may have characters gets a longer name. -/
theorem name_of_dots {key : List Char} (h : List.replicate longest '.' <+: withoutScheme key) :
    nameChars key = '_' :: List.replicate longest '.' := by
  have hcut : cutChars key = List.replicate longest '.' := by
    have ht := List.prefix_iff_eq_take.mp ((dots_in_front longest _).mpr h)
    rw [List.length_replicate] at ht
    exact ht.symm
  rcases name_cases key with ⟨_, c, hc, hne⟩ | ⟨n, _, hd, hn⟩
  · rw [hcut] at hc
    exact absurd (List.eq_of_mem_replicate hc) hne
  · rw [hn, ← hd, hcut]

/-- The only names that are too long are those of such keys. -/
theorem name_long_iff (key : List Char) :
    longest < (nameChars key).length ↔ List.replicate longest '.' <+: withoutScheme key := by
  constructor
  · intro h
    rcases name_cases key with ⟨hn, _⟩ | ⟨n, hle, hd, hn⟩
    · rw [hn] at h
      exact absurd h (not_lt.mpr (List.length_take_le _ _))
    · rw [hn, List.length_cons, List.length_replicate] at h
      obtain rfl : n = longest := by omega
      rw [← dots_in_front, ← hd]
      exact List.take_prefix _ _
  · intro h
    rw [name_of_dots h]
    simp

theorem to_list_name (key : String) : (directoryName key).toList = nameChars key.toList :=
  String.toList_ofList

/-- The name of a directory stands for itself, unless it is too long. -/
theorem directory_name_iff (key : String) : directoryName (directoryName key) = directoryName key ↔
    ¬List.replicate longest '.' <+: withoutScheme key.toList := by
  rw [← String.toList_inj, to_list_name, to_list_name, name_of_name, List.take_eq_self_iff,
    ← name_long_iff, not_lt]

/-- What makes a name safe to use in a directory. -/
structure Harmless (name : String) : Prop where
  nonempty : name ≠ ""
  short : name.length ≤ 201
  safe : ∀ c ∈ name.toList, c.isAlphanum = true ∨ c = '_' ∨ c = '-' ∨ c = '.'
  sparse : ¬['_', '_', '_'] <:+: name.toList
  notDots : ∃ c ∈ name.toList, c ≠ '.'

theorem name_harmless (key : String) : Harmless (directoryName key) := by
  have hplain := plain_name key.toList
  rw [← to_list_name] at hplain
  have hdots : ∃ c ∈ (directoryName key).toList, c ≠ '.' := by
    have hd := name_not_dots key.toList
    rw [← to_list_name] at hd
    simpa using hd
  constructor
  · rintro h
    simp [h] at hdots
  · rw [← String.length_toList, to_list_name]
    rcases name_cases key.toList with ⟨hn, _⟩ | ⟨n, hle, _, hn⟩
    · rw [hn]
      exact (List.length_take_le _ _).trans (by decide)
    · rw [hn, List.length_cons, List.length_replicate]
      exact Nat.succ_le_succ hle
  · intro c hc
    have hs := hplain.safe c hc
    simpa [isSafe, or_assoc] using hs
  · exact hplain.sparse
  · exact hdots

end SchemaHistory.Key
