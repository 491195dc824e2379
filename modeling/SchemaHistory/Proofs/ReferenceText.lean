import SchemaHistory.Proofs.References

namespace SchemaHistory

theorem Text.trim_chars_clear {cs : List Char} (h : ∀ c ∈ cs, isBlank c = false) :
    trimChars cs = cs := by
  have hkeep {ds : List Char} (hd : ∀ c ∈ ds, isBlank c = false) : ds.dropWhile isBlank = ds := by
    cases ds with
    | nil => rfl
    | cons d ds => exact List.dropWhile_cons_of_neg (by simp [hd d List.mem_cons_self])
  rw [trimChars, hkeep h, hkeep (by simpa using h), List.reverse_reverse]

theorem name_char_range {c : Char} (h : isNameChar c = true) : 48 ≤ c.toNat ∧ c.toNat ≤ 122 := by
  simp only [isNameChar, isNameStart, Bool.or_eq_true, beq_iff_eq] at h
  rcases h with (rfl | h) | h
  · decide
  · rcases Bool.or_eq_true_iff.mp h with h | h
    · have hr : 65 ≤ c.toNat ∧ c.toNat ≤ 90 := of_decide_eq_true h
      omega
    · obtain ⟨hl, hu⟩ := Bool.and_eq_true_iff.mp h
      have hl : 97 ≤ c.toNat := of_decide_eq_true hl
      have hu : c.toNat ≤ 122 := of_decide_eq_true hu
      omega
  · obtain ⟨hl, hu⟩ := Bool.and_eq_true_iff.mp h
    have hl : 48 ≤ c.toNat := of_decide_eq_true hl
    have hu : c.toNat ≤ 57 := of_decide_eq_true hu
    omega

theorem name_char_not_blank {c : Char} (h : isNameChar c = true) : Text.isBlank c = false := by
  have hc := name_char_range h
  rw [Text.isBlank, List.any_eq_false]
  simp only [Text.blankRanges, List.forall_mem_cons, Bool.and_eq_true, decide_eq_true_eq,
    List.not_mem_nil, false_implies, implies_true, and_true]
  omega

namespace TypeRef

/-- Takes wrappers off `cs`, which has `before` in front of it and `rest` behind it. -/
def peelWithin (outer : List Wrapper) (before cs rest : List Char) : List Wrapper × List Char :=
  peel outer (cs ++ rest) cs.length (cs.reverse ++ before)

/-- Texts that no wrapper can be taken off. -/
structure Bare (cs : List Char) : Prop where
  unmarked : cs.getLast? ≠ some '!'
  unbracketed : cs.head? = some '[' → cs.getLast? ≠ some ']'

variable {outer : List Wrapper} {before cs rest : List Char}

theorem peel_mark :
    peelWithin outer before (cs ++ ['!']) rest
      = peelWithin (.nonNull :: outer) before cs ('!' :: rest) := by
  simp [peelWithin, peel]

theorem peel_brackets :
    peelWithin outer before ('[' :: (cs ++ [']'])) rest
      = peelWithin (.list :: outer) ('[' :: before) cs (']' :: rest) := by
  simp [peelWithin, peel]

theorem peel_bare (h : Bare cs) : peelWithin outer before cs rest = (outer, cs) := by
  rcases List.eq_nil_or_concat' cs with rfl | ⟨ds, d, rfl⟩
  · cases before <;> simp [peelWithin, peel]
  · have hd : d ≠ '!' := by simpa using h.unmarked
    have hr : (ds ++ [d]).reverse ++ before = d :: (ds.reverse ++ before) := by simp
    rw [peelWithin, hr, peel.eq_def]
    dsimp only
    rw [if_neg (by simp), if_neg hd]
    split
    · rename_i front heq
      have hh : (ds ++ [d]).head? = some '[' := by
        rw [← List.head?_append_of_ne_nil _ (by simp), heq, List.head?_cons]
      have hb : d ≠ ']' := by simpa using h.unbracketed hh
      rw [if_neg hb, List.take_left]
    · rw [List.take_left]

theorem bare_or_wrapped (cs : List Char) :
    Bare cs ∨ (∃ ds, cs = ds ++ ['!']) ∨ ∃ ds, cs = '[' :: (ds ++ [']']) := by
  by_cases hm : cs.getLast? = some '!'
  · obtain ⟨ds, rfl⟩ := List.getLast?_eq_some_iff.mp hm
    exact .inr (.inl ⟨ds, rfl⟩)
  · by_cases hb : cs.head? = some '[' ∧ cs.getLast? = some ']'
    · obtain ⟨hh, hl⟩ := hb
      obtain ⟨ds, rfl⟩ := List.getLast?_eq_some_iff.mp hl
      cases ds with
      | nil => simp at hh
      | cons d ds =>
        obtain rfl : d = '[' := by simpa using hh
        exact .inr (.inr ⟨ds, rfl⟩)
    · exact .inl ⟨hm, fun hh hl => hb ⟨hh, hl⟩⟩

theorem bare_of_name (h : isName cs = true) : Bare cs := by
  have hlast {c : Char} (hc : isNameChar c = false) : cs.getLast? ≠ some c := by
    intro hl
    have hn := name_chars h c (List.mem_of_getLast? hl)
    simp [hc] at hn
  exact ⟨hlast (by decide), fun _ => hlast (by decide)⟩

theorem text_before_append (t : TypeRef) (rest : List Char) :
    t.textBefore rest = t.textBefore [] ++ rest := by
  rw [text_before_parts, text_before_parts]
  simp

/-- Of the text of a reference, its wrappers are taken off and its name is left. -/
theorem peel_text {t : TypeRef} (h : Bare t.baseName.toList) :
    peelWithin outer before (t.textBefore []) rest
      = (t.wrappers.reverse ++ outer, t.baseName.toList) := by
  induction t generalizing outer before rest with
  | named name =>
    rw [textBefore, List.append_nil]
    exact peel_bare h
  | list t ih =>
    rw [textBefore, text_before_append, peel_brackets, ih h]
    simp [wrappers, baseName]
  | nonNull t ih =>
    rw [textBefore, text_before_append, peel_mark, ih h]
    simp [wrappers, baseName]

/-- Every text is that of some reference, if any text may be a name and marks may be doubled. The
name is what is left when nothing more can be taken off. -/
theorem exists_spelled (cs : List Char) :
    ∃ t : TypeRef, t.textBefore [] = cs ∧ Bare t.baseName.toList := by
  -- On the length: brackets go in pairs, one from each end.
  induction hn : cs.length using Nat.strong_induction_on generalizing cs with
  | _ n ih =>
    rcases bare_or_wrapped cs with hb | ⟨ds, rfl⟩ | ⟨ds, rfl⟩
    · exact ⟨named (String.ofList cs), by simp [textBefore], by simpa [baseName] using hb⟩
    · have hlt : ds.length < n := by
        rw [← hn, List.length_append, List.length_singleton]
        omega
      obtain ⟨t, rfl, hb⟩ := ih ds.length hlt ds rfl
      exact ⟨nonNull t, text_before_append t _, hb⟩
    · have hlt : ds.length < n := by
        rw [← hn, List.length_cons, List.length_append]
        omega
      obtain ⟨t, rfl, hb⟩ := ih ds.length hlt ds rfl
      exact ⟨list t, congrArg _ (text_before_append t _), hb⟩

/-- Putting the wrappers back around the name gives the reference, unless a mark is doubled. -/
theorem wrap_all (fault : RefFault) (t : TypeRef) :
    t.wrappers.reverse.foldlM (fun t w => wrap? fault w t) (named t.baseName)
      = if t.Regular then .ok t else .error fault := by
  rw [List.foldlM_reverse]
  induction t with
  | named name => rfl
  | list t ih => rw [wrappers, List.foldrM_cons, baseName, ih, wrap_checked, wrap]
  | nonNull t ih => rw [wrappers, List.foldrM_cons, baseName, ih, wrap_checked, wrap]

/-- What reading makes of a text, by the reference that it is the text of. -/
theorem read_spelled {text : String} {t : TypeRef} (ht : t.text = Text.trim text)
    (hb : Bare t.baseName.toList) :
    read text = if isName t.baseName.toList then
      if t.Regular then .ok t else .error .doubledMark
    else .error (.invalidName t.baseName) := by
  have hcs : Text.trimChars text.toList = t.textBefore [] := String.ofList_injective ht.symm
  have hp := @peel_text [] [] [] t hb
  rw [peelWithin, List.append_nil, List.append_nil, List.append_nil] at hp
  rw [read, hcs, hp]
  simp only [String.ofList_toList, wrap_all]

theorem parse_iff {text : String} {t : TypeRef} :
    parse text = .ok t ↔ t.Proper ∧ t.text = Text.trim text := by
  constructor
  · intro h
    obtain ⟨s, hs, hb⟩ := exists_spelled (Text.trimChars text.toList)
    have ht : s.text = Text.trim text := congrArg String.ofList hs
    rw [parse, read_spelled ht hb] at h
    split at h
    · rename_i hn
      split at h
      · rename_i hr
        cases h
        exact ⟨⟨hr, hn⟩, ht⟩
      · contradiction
    · contradiction
  · intro h
    obtain ⟨hp, ht⟩ := h
    rw [parse, read_spelled ht (bare_of_name hp.name), if_pos hp.name, if_pos hp.regular]
    rfl

theorem text_not_blank {t : TypeRef} (hn : isName t.baseName.toList = true) :
    ∀ c ∈ t.textBefore [], Text.isBlank c = false := by
  intro c hc
  rw [text_before_parts, List.append_nil] at hc
  rcases List.mem_append.mp hc with hc | hc
  · rw [beq_iff_eq.mp (t.brackets_open c hc)]
    decide
  · rcases List.mem_append.mp hc with hc | hc
    · exact name_char_not_blank (name_chars hn c hc)
    · obtain ⟨w, _, rfl⟩ := List.mem_map.mp (List.mem_reverse.mp hc)
      cases w <;> decide

theorem text_trimmed {t : TypeRef} (hn : isName t.baseName.toList = true) :
    Text.trim t.text = t.text := by
  rw [Text.trim, text, String.toList_ofList, Text.trim_chars_clear (text_not_blank hn)]

/-- Reading gives a reference just when its text is the one that was read, without the blanks around
it, and fails on all other texts. What is written can be read, and says which reference it was. -/
theorem parse_exact (text : String) :
    (∀ t, parse text = .ok t ↔ t.Proper ∧ t.text = Text.trim text) ∧
    ((∀ t : TypeRef, t.Proper → t.text ≠ Text.trim text) →
      ∃ fault : RefFault, parse text = .error (.malformedTypeRef text fault.message)) ∧
    (∀ s t : TypeRef, s.Proper → t.Proper → s.text = t.text → s = t) ∧
    ∀ t : TypeRef, t.Proper → parse t.text = .ok t := by
  refine ⟨fun t => parse_iff, fun hno => ?_, fun s t hs ht h => ?_, fun t ht => ?_⟩
  · cases h : parse text with
    | ok t => exact absurd (parse_iff.mp h).2 (hno t (parse_iff.mp h).1)
    | error f =>
      obtain ⟨fault, rfl⟩ := RefFault.located h
      exact ⟨fault, rfl⟩
  · exact text_determines hs.name ht.name h
  · exact parse_iff.mpr ⟨ht, (text_trimmed ht.name).symm⟩

/-- A list in blanks, and a text whose brackets do not match. -/
theorem parse_exact_sizes :
    (nonNull (list (nonNull (named "Int")))).text = Text.trim " [Int!]!\n" ∧
    parse " [Int!]!\n" = .ok (nonNull (list (nonNull (named "Int")))) ∧
    ∃ fault : RefFault, parse "[[Int]" = .error (.malformedTypeRef "[[Int]" fault.message) := by
  have ht : (nonNull (list (nonNull (named "Int")))).text = Text.trim " [Int!]!\n" := by decide
  refine ⟨ht, ((parse_exact _).1 _).mpr ⟨⟨by decide, by decide⟩, ht⟩, ?_⟩
  refine (parse_exact "[[Int]").2.1 ?_
  intro t hp he
  cases ((parse_exact "[[Int]").1 t).mpr ⟨hp, he⟩

end TypeRef

end SchemaHistory
