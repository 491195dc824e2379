import Mathlib.Data.List.DropRight
import SchemaHistory.Proofs.Descriptions

namespace SchemaHistory.Sdl

/-- Each line end as one line feed. -/
def unifyLineEnds : List Char → List Char
  | '\r' :: '\n' :: cs => '\n' :: unifyLineEnds cs
  | c :: cs => (if c = '\r' then '\n' else c) :: unifyLineEnds cs
  | [] => []

def isWhite (c : Char) : Bool :=
  c == ' ' || c == '\t'

def isBlankLine (line : List Char) : Bool :=
  line.all isWhite

def indentation (line : List Char) : Nat :=
  (line.takeWhile isWhite).length

/-- The least indentation of the lines that are not blank. -/
def commonIndentation (lines : List (List Char)) : Nat :=
  ((lines.filter fun l => !isBlankLine l).map indentation).min?.getD 0

def dedent (lines : List (List Char)) : List (List Char) :=
  lines.map (List.drop (commonIndentation lines))

/-- Lines without the blank ones at both ends. -/
def trimLines (lines : List (List Char)) : List (List Char) :=
  (lines.dropWhile isBlankLine).rdropWhile isBlankLine

/-- What a block string stands for. The indentation that all its lines but the first have in common
does not count, and blank lines at its ends do not either. -/
def blockValue (raw : List Char) : List Char :=
  match (unifyLineEnds raw).splitOn '\n' with
  | [] => []
  | first :: lines => stack (trimLines (first :: dedent lines))

/-- What a string stands for. -/
def Literal.value : Literal → List Char
  | quoted text => text
  | block source => blockValue (unescape source)

theorem unify_clear {cs : List Char} (h : '\r' ∉ cs) : unifyLineEnds cs = cs := by
  fun_induction unifyLineEnds cs with
  | case1 => simp at h
  | case2 c cs _ ih =>
    rw [List.mem_cons, not_or] at h
    rw [if_neg (Ne.symm h.1), ih h.2]
  | case3 => rfl

theorem not_mem_unify (cs : List Char) : '\r' ∉ unifyLineEnds cs := by
  fun_induction unifyLineEnds cs with
  | case1 cs ih => simpa using ih
  | case2 c cs _ ih =>
    rw [List.mem_cons, not_or]
    refine ⟨?_, ih⟩
    split
    · decide
    · exact Ne.symm ‹_›
  | case3 => simp

section

variable {margin : List Char}

theorem blank_margin (hm : ∀ c ∈ margin, c = ' ') : isBlankLine margin = true :=
  List.all_eq_true.mpr fun c hc => by rw [hm c hc]; rfl

theorem blank_indented (hm : ∀ c ∈ margin, c = ' ') (line : List Char) :
    isBlankLine (indentLine margin line) = isBlankLine line := by
  have hwhite : margin.all isWhite = true := blank_margin hm
  unfold indentLine
  split
  · rename_i he
    rw [List.isEmpty_iff.mp he]
  · rw [isBlankLine, List.all_append, hwhite, Bool.true_and]
    rfl

theorem indentation_indented (hm : ∀ c ∈ margin, c = ' ') {line : List Char} (h : line ≠ []) :
    indentation (indentLine margin line) = margin.length + indentation line := by
  have hwhite : ∀ c ∈ margin, isWhite c = true := fun c hc => by rw [hm c hc]; rfl
  rw [indentLine, if_neg (by simpa using h), indentation, List.takeWhile_append_of_pos hwhite,
    List.length_append]
  rfl

theorem drop_indented (margin line : List Char) (k : Nat) :
    (indentLine margin line).drop (margin.length + k) = line.drop k := by
  unfold indentLine
  split
  · rename_i he
    rw [List.isEmpty_iff.mp he, List.drop_nil, List.drop_nil]
  · rw [List.drop_append]
    simp

theorem min_add (n : Nat) (ks : List Nat) :
    (ks.map (n + ·)).min? = ks.min?.map (n + ·) := by
  cases h : ks.min? with
  | none =>
    rw [List.min?_eq_none_iff.mp h]
    rfl
  | some k =>
    obtain ⟨hk, hle⟩ := List.min?_eq_some_iff.mp h
    rw [Option.map_some]
    refine List.min?_eq_some_iff.mpr ⟨List.mem_map_of_mem hk, ?_⟩
    intro b hb
    obtain ⟨j, hj, rfl⟩ := List.mem_map.mp hb
    exact Nat.add_le_add_left (hle j hj) n

/-- A margin adds to the common indentation of lines, if one of them has text. -/
theorem common_indented (hm : ∀ c ∈ margin, c = ' ') (lines : List (List Char)) :
    commonIndentation (lines.map (indentLine margin) ++ [margin])
      = if lines.all isBlankLine then 0 else margin.length + commonIndentation lines := by
  have hfilter : ((lines.map (indentLine margin) ++ [margin]).filter fun l => !isBlankLine l)
      = (lines.filter fun l => !isBlankLine l).map (indentLine margin) := by
    rw [List.filter_append, List.filter_map, List.filter_singleton, blank_margin hm]
    simp [Function.comp_def, blank_indented hm]
  have hdepth : ((lines.filter fun l => !isBlankLine l).map (indentLine margin)).map indentation
      = ((lines.filter fun l => !isBlankLine l).map indentation).map (margin.length + ·) := by
    rw [List.map_map, List.map_map]
    refine List.map_congr_left fun l hl => indentation_indented hm ?_
    rintro rfl
    simp [isBlankLine] at hl
  rw [commonIndentation, hfilter, hdepth, min_add]
  split
  · rename_i hall
    have hnone : (lines.filter fun l => !isBlankLine l) = [] := by
      rw [List.filter_eq_nil_iff]
      exact fun l hl => by simp [List.all_eq_true.mp hall l hl]
    rw [hnone]
    rfl
  · rename_i hsome
    rw [commonIndentation]
    cases h : ((lines.filter fun l => !isBlankLine l).map indentation).min? with
    | some k => rfl
    | none =>
      have hnone := List.map_eq_nil_iff.mp (List.min?_eq_none_iff.mp h)
      rw [List.filter_eq_nil_iff] at hnone
      exact absurd (List.all_eq_true.mpr fun l hl => by simpa using hnone l hl) hsome

theorem trim_blank {lines : List (List Char)} (h : lines.all isBlankLine = true) :
    trimLines lines = [] := by
  rw [trimLines, List.dropWhile_eq_nil_iff.mpr (List.all_eq_true.mp h), List.rdropWhile_nil]

/-- Blank lines in front of lines and behind them do not count. -/
theorem trim_between {first last : List Char} (hf : isBlankLine first = true)
    (hl : isBlankLine last = true) (lines : List (List Char)) :
    trimLines (first :: (lines ++ [last])) = trimLines lines := by
  rw [trimLines, List.dropWhile_cons_of_pos hf, List.dropWhile_append, trimLines]
  split
  · rename_i he
    rw [List.isEmpty_iff.mp he, List.dropWhile_cons_of_pos hl]
    rfl
  · rw [List.rdropWhile_concat_pos _ _ _ hl]

theorem trim_within (lines : List (List Char)) : trimLines lines <:+: lines :=
  (List.rdropWhile_prefix _ _).isInfix.trans (List.dropWhile_suffix _).isInfix

theorem mem_dedent {line : List Char} {lines : List (List Char)} (h : line ∈ dedent lines) :
    ∀ c ∈ line, ∃ l ∈ lines, c ∈ l := by
  obtain ⟨l, hl, rfl⟩ := List.mem_map.mp h
  exact fun c hc => ⟨l, hl, List.mem_of_mem_drop hc⟩

theorem mem_trimmed {first line : List Char} {lines : List (List Char)}
    (h : line ∈ trimLines (first :: dedent lines)) : ∀ c ∈ line, ∃ l ∈ first :: lines, c ∈ l := by
  intro c hc
  rcases List.mem_cons.mp ((trim_within _).mem h) with rfl | h
  · exact ⟨line, List.mem_cons_self, hc⟩
  · obtain ⟨l, hl, hc⟩ := mem_dedent h c hc
    exact ⟨l, List.mem_cons_of_mem _ hl, hc⟩

theorem blank_drop {line : List Char} (h : isBlankLine line = true) (k : Nat) :
    isBlankLine (line.drop k) = true :=
  List.all_eq_true.mpr fun c hc => List.all_eq_true.mp h c (List.mem_of_mem_drop hc)

/-- The margin of a block string does not change what it stands for. -/
theorem trim_indented (hm : ∀ c ∈ margin, c = ' ') (lines : List (List Char)) :
    trimLines ([] :: dedent (lines.map (indentLine margin) ++ [margin]))
      = trimLines (dedent lines) := by
  rw [dedent, common_indented hm, List.map_append, List.map_singleton,
    trim_between rfl (blank_drop (blank_margin hm) _)]
  split
  · rename_i hall
    have hblank := List.all_eq_true.mp hall
    rw [trim_blank, trim_blank]
    · simpa [dedent] using fun l hl => blank_drop (hblank l hl) _
    · simpa [blank_indented hm] using hblank
  · rw [List.map_map]
    exact congrArg trimLines (List.map_congr_left fun l _ => drop_indented margin l _)

theorem mem_indented {line : List Char} {c : Char} (h : c ∈ indentLine margin line) :
    c ∈ margin ∨ c ∈ line := by
  unfold indentLine at h
  split at h
  · contradiction
  · exact List.mem_append.mp h

/-- The lines of the block string of a description, from one mark to the other. -/
def printedLines (margin description : List Char) : List (List Char) :=
  [] :: ((description.splitOn '\n').map (indentLine margin) ++ [margin])

theorem mem_printed {description line : List Char} (h : line ∈ printedLines margin description) :
    ∀ c ∈ line, c ∈ margin ∨ ∃ l ∈ description.splitOn '\n', c ∈ l := by
  intro c hc
  rcases List.mem_cons.mp h with rfl | h
  · contradiction
  · rcases List.mem_append.mp h with h | h
    · obtain ⟨l, hl, rfl⟩ := List.mem_map.mp h
      exact (mem_indented hc).imp_right fun hc => ⟨l, hl, hc⟩
    · exact .inl (List.mem_singleton.mp h ▸ hc)

theorem unescape_source (hm : ∀ c ∈ margin, c = ' ') (description : List Char) :
    Literal.unescape (Literal.source margin description)
      = stack (printedLines margin description) := by
  have hne : (description.splitOn '\n').map (indentLine margin) ≠ [] :=
    List.map_eq_nil_iff.not.mpr (List.splitOn_ne_nil _ _)
  have hmargin : Literal.unescape margin = margin := by
    have h := @Literal.Stands.means _ _ ((Literal.stands_escaped []).indented hm) [] (by simp)
    simpa [escapeTripleQuotes, Literal.unescape] using h
  rw [stack, printedLines,
    List.intercalate_cons_of_ne_nil (List.append_ne_nil_of_left_ne_nil hne _),
    intercalate_append hne (List.cons_ne_nil _ _), List.intercalate_singleton, Literal.source,
    Literal.unescape_blank (.inr rfl), (Literal.stands_lines hm description).means (by simp),
    Literal.unescape_blank (.inr rfl), hmargin]
  rfl

/-- What the block string of a description stands for, where its lines end with line feeds. -/
theorem value_of_source (hm : ∀ c ∈ margin, c = ' ') {description : List Char}
    (hr : '\r' ∉ description) :
    (Literal.block (Literal.source margin description)).value
      = stack (trimLines (dedent (description.splitOn '\n'))) := by
  have hclear : '\r' ∉ stack (printedLines margin description) := by
    intro h
    rcases mem_intercalate h with h | ⟨line, hl, h⟩
    · exact absurd (List.mem_singleton.mp h) (by decide)
    · rcases mem_printed hl _ h with h | ⟨l, hl, h⟩
      · exact absurd (hm _ h) (by decide)
      · exact hr (mem_split hl _ h).2
  have hlines : (stack (printedLines margin description)).splitOn '\n'
      = printedLines margin description := by
    refine List.splitOn_intercalate _ (fun line hl h => ?_) (List.cons_ne_nil _ _)
    rcases mem_printed hl _ h with h | ⟨l, hl, h⟩
    · exact absurd (hm _ h) (by decide)
    · exact (mem_split hl _ h).1 rfl
  rw [Literal.value, unescape_source hm, blockValue, unify_clear hclear, hlines, printedLines]
  exact congrArg stack (trim_indented hm _)

/-- Descriptions that a block string can stand for: the lines end with line feeds, there is text in
the first and in the last one, and a line with text is not indented. -/
structure Upright (description : List Char) : Prop where
  feeds : '\r' ∉ description
  first : ∀ l ∈ (description.splitOn '\n').head?, isBlankLine l = false
  last : ∀ l ∈ (description.splitOn '\n').getLast?, isBlankLine l = false
  flush : ∃ l ∈ description.splitOn '\n', isBlankLine l = false ∧ indentation l = 0

theorem common_attained {lines : List (List Char)} (h : ∃ l ∈ lines, isBlankLine l = false) :
    ∃ l ∈ lines, isBlankLine l = false ∧ indentation l = commonIndentation lines := by
  obtain ⟨l, hl, hb⟩ := h
  rw [commonIndentation]
  cases hk : ((lines.filter fun l => !isBlankLine l).map indentation).min? with
  | none =>
    have hnone := List.map_eq_nil_iff.mp (List.min?_eq_none_iff.mp hk)
    rw [List.filter_eq_nil_iff] at hnone
    exact absurd (hnone l hl) (by simp [hb])
  | some k =>
    obtain ⟨l', hl', hi⟩ := List.mem_map.mp (List.min?_eq_some_iff.mp hk).1
    rw [List.mem_filter, Bool.not_eq_true'] at hl'
    exact ⟨l', hl'.1, hl'.2, hi⟩

/-- Where a line with text is not indented, the lines keep their indentation. -/
theorem dedent_flush {lines : List (List Char)}
    (h : ∃ l ∈ lines, isBlankLine l = false ∧ indentation l = 0) : dedent lines = lines := by
  obtain ⟨l, hl, hb, hi⟩ := h
  have hmem : indentation l ∈ (lines.filter fun l => !isBlankLine l).map indentation :=
    List.mem_map_of_mem (List.mem_filter.mpr ⟨hl, by rw [hb]; rfl⟩)
  have hzero : commonIndentation lines = 0 := by
    rw [commonIndentation]
    cases hk : ((lines.filter fun l => !isBlankLine l).map indentation).min? with
    | none => rfl
    | some k =>
      have hle := (List.min?_eq_some_iff.mp hk).2 _ hmem
      rw [Option.getD_some]
      omega
  rw [dedent, hzero]
  exact List.map_id lines

theorem trim_self {lines : List (List Char)} :
    trimLines lines = lines ↔ (∀ l ∈ lines.head?, isBlankLine l = false) ∧
      ∀ l ∈ lines.getLast?, isBlankLine l = false := by
  have hhead : lines.dropWhile isBlankLine = lines ↔
      ∀ l ∈ lines.head?, isBlankLine l = false := by
    rw [List.dropWhile_eq_self_iff]
    cases lines <;> simp
  have hlast : lines.rdropWhile isBlankLine = lines ↔
      ∀ l ∈ lines.getLast?, isBlankLine l = false := by
    rw [List.rdropWhile_eq_self_iff]
    rcases List.eq_nil_or_concat' lines with rfl | ⟨ls, l, rfl⟩ <;> simp
  rw [← hhead, ← hlast, trimLines]
  constructor
  · intro h
    have hdrop : lines.dropWhile isBlankLine = lines := by
      refine (List.dropWhile_suffix _).eq_of_length_le ?_
      rw [← congrArg List.length h]
      exact (List.rdropWhile_prefix _ _).length_le
    exact ⟨hdrop, by rwa [hdrop] at h⟩
  · rintro ⟨hdrop, hrdrop⟩
    rw [hdrop, hrdrop]

theorem value_feeds (raw : List Char) : '\r' ∉ blockValue raw := by
  unfold blockValue
  split
  · exact List.not_mem_nil
  · rename_i first lines hs
    intro h
    rcases mem_intercalate h with h | ⟨l, hl, h⟩
    · exact absurd (List.mem_singleton.mp h) (by decide)
    · obtain ⟨l', hl', h⟩ := mem_trimmed hl _ h
      exact not_mem_unify raw (mem_split (hs ▸ hl') _ h).2

theorem mem_drop_while {α : Type} {p : α → Bool} {a : α} {l : List α} (h : a ∈ l)
    (hp : p a = false) : a ∈ l.dropWhile p := by
  rw [← List.takeWhile_append_dropWhile (p := p) (l := l), List.mem_append] at h
  refine h.resolve_left fun ht => ?_
  rw [List.mem_takeWhile_imp ht] at hp
  contradiction

/-- Lines with text are not taken off. -/
theorem mem_trim {line : List Char} {lines : List (List Char)} (h : line ∈ lines)
    (hb : isBlankLine line = false) : line ∈ trimLines lines :=
  List.mem_reverse.mpr (mem_drop_while (List.mem_reverse.mpr (mem_drop_while h hb)) hb)

theorem trim_trim (lines : List (List Char)) : trimLines (trimLines lines) = trimLines lines := by
  have hhead : (trimLines lines).dropWhile isBlankLine = trimLines lines := by
    rw [List.dropWhile_eq_self_iff]
    intro hl
    have hfront : trimLines lines <+: lines.dropWhile isBlankLine := List.rdropWhile_prefix _ _
    rw [hfront.getElem hl]
    exact List.dropWhile_get_zero_not _ _ _
  rw [trimLines, hhead]
  exact List.rdropWhile_idempotent _ _

theorem flush_drop {line : List Char} (h : isBlankLine line = false) :
    isBlankLine (line.drop (indentation line)) = false ∧
      indentation (line.drop (indentation line)) = 0 := by
  induction line with
  | nil => contradiction
  | cons c cs ih =>
    by_cases hc : isWhite c = true
    · have hdepth : indentation (c :: cs) = indentation cs + 1 := by
        rw [indentation, List.takeWhile_cons_of_pos hc]
        rfl
      rw [isBlankLine, List.all_cons, hc, Bool.true_and] at h
      rw [hdepth, List.drop_succ_cons]
      exact ih h
    · have hdepth : indentation (c :: cs) = 0 := by
        rw [indentation, List.takeWhile_cons_of_neg hc]
        rfl
      rw [hdepth, List.drop_zero]
      exact ⟨h, hdepth⟩

/-- A block string of more than one line has text behind its first line. -/
theorem text_behind {first : List Char} {lines : List (List Char)}
    (hn : '\n' ∈ stack (trimLines (first :: dedent lines)))
    (hclear : ∀ l ∈ trimLines (first :: dedent lines), '\n' ∉ l)
    (hlast : ∀ l ∈ (trimLines (first :: dedent lines)).getLast?, isBlankLine l = false) :
    ∃ l ∈ lines, isBlankLine l = false := by
  have hwithin := trim_within (first :: dedent lines)
  generalize trimLines (first :: dedent lines) = trimmed at *
  match trimmed with
  | [] => contradiction
  | [l] => exact absurd hn (by simpa [stack] using hclear)
  | _ :: l :: ls =>
    have hmem : (l :: ls).getLast (List.cons_ne_nil _ _) ∈ dedent lines :=
      hwithin.sublist.tail.mem (List.getLast_mem _)
    obtain ⟨l', hl', he⟩ := List.mem_map.mp hmem
    refine ⟨l', hl', ?_⟩
    by_contra hb
    have hblank := blank_drop ((Bool.not_eq_false _).mp hb) (commonIndentation lines)
    rw [he] at hblank
    have htext := hlast _ (List.getLast?_eq_some_getLast (List.cons_ne_nil _ _))
    rw [List.getLast_cons (List.cons_ne_nil _ _), hblank] at htext
    contradiction

/-- Every block string of more than one line stands for an upright text. -/
theorem upright_value (raw : List Char) (hn : '\n' ∈ blockValue raw) :
    Upright (blockValue raw) := by
  have hfeeds := value_feeds raw
  revert hn hfeeds
  unfold blockValue
  split
  · exact fun hn => absurd hn List.not_mem_nil
  · rename_i first lines hs
    intro hn hfeeds
    have hclear : ∀ l ∈ trimLines (first :: dedent lines), '\n' ∉ l := by
      intro l hl hc
      obtain ⟨l', hl', hc⟩ := mem_trimmed hl _ hc
      exact (mem_split (hs ▸ hl') _ hc).1 rfl
    have hne : trimLines (first :: dedent lines) ≠ [] := by
      intro he
      rw [he] at hn
      exact absurd hn List.not_mem_nil
    have hlines := List.splitOn_intercalate '\n' hclear hne
    obtain ⟨hhead, hlast⟩ := trim_self.mp (trim_trim (first :: dedent lines))
    refine ⟨hfeeds, ?_, ?_, ?_⟩
    · rwa [stack, hlines]
    · rwa [stack, hlines]
    · rw [stack, hlines]
      obtain ⟨l, hl, hb, hi⟩ := common_attained (text_behind hn hclear hlast)
      obtain ⟨hb', hi'⟩ := flush_drop hb
      rw [hi] at hb' hi'
      exact ⟨_, mem_trim (List.mem_cons_of_mem _ (List.mem_map_of_mem hl)) hb', hb', hi'⟩

/-- The block string of a description stands for the description only where a block string can, and
then it does at any margin. -/
theorem value_iff (hm : ∀ c ∈ margin, c = ' ') {description : List Char} (hn : '\n' ∈ description) :
    (Literal.block (Literal.source margin description)).value = description ↔
      Upright description := by
  constructor
  · intro h
    rw [← h, Literal.value] at hn ⊢
    exact upright_value _ hn
  · intro h
    rw [value_of_source hm h.feeds, dedent_flush h.flush, trim_self.mpr ⟨h.first, h.last⟩]
    exact List.intercalate_splitOn '\n'

end

/-- A description of more than one line is printed as a block string that stands for its lines
without their common indentation and without the blank ones at the ends. At any margin, that is the
description exactly when it is upright, which is when some block string stands for it. -/
theorem description_value {margin : String} (hm : margin ∈ ["", Sdl.margin]) {d : String}
    (hn : '\n' ∈ d.toList) :
    ∃ literal source, descriptionText true margin (some d)
        = margin ++ String.ofList literal ++ "\n" ∧
      Literal.read? literal = some (.block source, []) ∧
      ('\r' ∉ d.toList →
        (Literal.block source).value = stack (trimLines (dedent (d.toList.splitOn '\n')))) ∧
      ((Literal.block source).value = d.toList ↔ Upright d.toList) ∧
      (Upright d.toList ↔ ∃ other, (Literal.block other).value = d.toList) := by
  have hblank := margin_blank hm
  have hread := Literal.read_block hblank d.toList []
  rw [List.append_nil] at hread
  have hvalue := value_iff hblank hn
  refine ⟨_, _, ?_, hread, value_of_source hblank, hvalue, fun h => ⟨_, hvalue.mpr h⟩, ?_⟩
  · have hd : d ≠ "" := by
      rintro rfl
      contradiction
    rw [description_shown margin hd, Literal.description_block hn]
    simp [String.append_assoc]
  · rintro ⟨other, he⟩
    rw [← he, Literal.value] at hn ⊢
    exact upright_value _ hn

theorem description_value_outline : ∃ literal source,
    descriptionText true Sdl.margin (some "Sizes\n\n  in inches\nby \"\"\"name\"\"\"")
      = Sdl.margin ++ String.ofList literal ++ "\n" ∧
    Literal.read? literal = some (.block source, []) ∧
    (Literal.block source).value = "Sizes\n\n  in inches\nby \"\"\"name\"\"\"".toList := by
  obtain ⟨literal, source, hl, hread, -, hvalue, -⟩ := description_value
    (by decide : Sdl.margin ∈ ["", Sdl.margin])
    (by decide : '\n' ∈ "Sizes\n\n  in inches\nby \"\"\"name\"\"\"".toList)
  exact ⟨literal, source, hl, hread, hvalue.mpr ⟨by decide, by decide, by decide, by decide⟩⟩

/-- Indentation that the lines of a description have in common is lost. No block string keeps it. -/
theorem common_indentation_lost : ∃ literal source,
    descriptionText true "" (some "    first\n    second") = String.ofList literal ++ "\n" ∧
    Literal.read? literal = some (.block source, []) ∧
    (Literal.block source).value = "first\nsecond".toList ∧
    ∀ other, (Literal.block other).value ≠ "    first\n    second".toList := by
  refine ⟨"\"\"\"\n    first\n    second\n\"\"\"".toList, "\n    first\n    second\n".toList,
    by decide, by decide, by decide, fun other he => ?_⟩
  have hupright := upright_value (Literal.unescape other)
  rw [← Literal.value, he] at hupright
  exact absurd (hupright (by decide)).flush (by decide)

end SchemaHistory.Sdl
