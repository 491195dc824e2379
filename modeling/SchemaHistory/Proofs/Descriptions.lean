import SchemaHistory.Proofs.Layout
import SchemaHistory.Proofs.StringLiterals

namespace SchemaHistory

/-- What stands in a part of a split list. -/
theorem mem_split {α : Type} [DecidableEq α] {a : α} {cs l : List α} (h : l ∈ cs.splitOn a) :
    ∀ c ∈ l, c ≠ a ∧ c ∈ cs := by
  induction cs generalizing l with
  | nil =>
    rw [List.splitOn_nil, List.mem_singleton] at h
    simp [h]
  | cons c cs ih =>
    have hrest {l : List α} (h : l ∈ cs.splitOn a) : ∀ d ∈ l, d ≠ a ∧ d ∈ c :: cs :=
      fun d hd => ⟨(ih h d hd).1, List.mem_cons_of_mem _ (ih h d hd).2⟩
    rw [List.splitOn_cons_eq_if_modifyHead] at h
    split at h
    · rcases List.mem_cons.mp h with rfl | h
      · simp
      · exact hrest h
    · rename_i hc
      obtain ⟨l', ls, hs⟩ := List.exists_cons_of_ne_nil (List.splitOn_ne_nil a cs)
      rw [hs, List.modifyHead_cons] at h
      rcases List.mem_cons.mp h with rfl | h
      · refine List.forall_mem_cons.mpr ⟨⟨by simpa using hc, List.mem_cons_self⟩, ?_⟩
        exact hrest (hs ▸ List.mem_cons_self)
      · exact hrest (hs ▸ List.mem_cons_of_mem _ h)

namespace Sdl

/-- A line without the margin that it starts with. -/
def outdentLine (margin line : List Char) : List Char :=
  if margin <+: line then line.drop margin.length else line

/-- What the lines between the first and the last line of a block string say without their margin,
with their escapes undone. -/
def Literal.content (margin literal : List Char) : List Char :=
  unescape (stack ((literal.splitOn '\n').tail.dropLast.map (outdentLine margin)))

theorem outdent_indent (margin line : List Char) :
    outdentLine margin (indentLine margin line) = line := by
  unfold indentLine
  split
  · rename_i he
    rw [List.isEmpty_iff.mp he, outdentLine, List.drop_nil, ite_self]
  · rw [outdentLine, if_pos (List.prefix_append margin line), List.drop_left]

/-- The lines of the block string of a description. -/
theorem block_lines {margin : List Char} (hm : '\n' ∉ margin) (description : List Char) :
    (tripleQuote ++ Literal.source margin description ++ tripleQuote).splitOn '\n'
      = tripleQuote :: (((escapeTripleQuotes description).splitOn '\n').map (indentLine margin)
        ++ [margin ++ tripleQuote]) := by
  have hne : ((escapeTripleQuotes description).splitOn '\n').map (indentLine margin) ≠ [] :=
    List.map_eq_nil_iff.not.mpr (List.splitOn_ne_nil _ _)
  have hstack : tripleQuote ++ Literal.source margin description ++ tripleQuote
      = stack (tripleQuote :: (((escapeTripleQuotes description).splitOn '\n').map
        (indentLine margin) ++ [margin ++ tripleQuote])) := by
    rw [stack, List.intercalate_cons_of_ne_nil (List.append_ne_nil_of_left_ne_nil hne _),
      intercalate_append hne (List.cons_ne_nil _ _), List.intercalate_singleton, Literal.source]
    simp
  have hmark : '\n' ∉ tripleQuote := by decide
  rw [hstack]
  refine List.splitOn_intercalate _ ?_ (List.cons_ne_nil _ _)
  simp only [List.forall_mem_cons, List.forall_mem_append, List.forall_mem_map]
  refine ⟨hmark, fun l hl => ?_, ?_, by simp⟩
  · have hclear : '\n' ∉ l := fun hc => (mem_split hl _ hc).1 rfl
    unfold indentLine
    split
    · exact List.not_mem_nil
    · exact fun hc => (List.mem_append.mp hc).elim hm hclear
  · exact fun hc => (List.mem_append.mp hc).elim hm hmark

/-- The block string of a description says the description. -/
theorem block_content {margin : List Char} (hm : '\n' ∉ margin) (description : List Char) :
    Literal.content margin (tripleQuote ++ Literal.source margin description ++ tripleQuote)
      = description := by
  have hout : outdentLine margin ∘ indentLine margin = id := funext (outdent_indent margin)
  rw [Literal.content, block_lines hm, List.tail_cons, List.dropLast_concat, List.map_map, hout,
    List.map_id, stack, List.intercalate_splitOn, Literal.unescape_self]

theorem escape_one_line (c : Char) : ∀ d ∈ Json.escape c, d ∉ lineEnds := by
  have hhex : ∀ n < 0x20, (['\\', 'u', '0', '0', Json.hexDigit (n / 16),
      Json.hexDigit (n % 16)].all fun d => decide (d ∉ lineEnds)) = true := by
    decide
  unfold Json.escape
  split
  case h_8 _ _ _ _ hn _ hr =>
    split
    · rename_i hc
      exact forall_of_all (hhex _ hc)
    · simpa [lineEnds] using ⟨hn, hr⟩
  all_goals exact forall_of_all (by decide)

theorem quote_one_line (cs : List Char) : ∀ c ∈ Json.quoteChars cs, c ∉ lineEnds := by
  rw [Json.quoteChars]
  simp only [List.forall_mem_cons, List.forall_mem_append, List.mem_flatMap]
  refine ⟨by decide, ?_, by decide, by simp⟩
  rintro d ⟨c, _, hd⟩
  exact escape_one_line c d hd

/-- A string that says a description: one in quotes if the description is one line, and a block
string otherwise, with marks on lines of their own. It is read up to its own last mark. -/
structure Says (margin description literal : List Char) : Prop where
  quoted : '\n' ∉ description →
    (∀ c ∈ literal, c ∉ lineEnds) ∧ Literal.read? literal = some (.quoted description, [])
  block : '\n' ∈ description →
    (∃ source, Literal.read? literal = some (.block source, [])) ∧
      (literal.splitOn '\n').head? = some tripleQuote ∧
      (literal.splitOn '\n').getLast? = some (margin ++ tripleQuote) ∧
      Literal.content margin literal = description

variable {margin description other literal : List Char}

theorem says_of_chars (hm : ∀ c ∈ margin, c = ' ') (hd : description ≠ []) :
    ∃ literal, descriptionChars margin description = margin ++ literal ++ ['\n'] ∧
      Says margin description literal := by
  have hclear : '\n' ∉ margin := fun h => absurd (hm _ h) (by decide)
  by_cases hn : '\n' ∈ description
  · have hread := Literal.read_block hm description []
    have hlines := block_lines hclear description
    rw [List.append_nil] at hread
    refine ⟨_, Literal.description_block hn, fun h => absurd hn h,
      fun _ => ⟨⟨_, hread⟩, ?_, ?_, ?_⟩⟩
    · rw [hlines, List.head?_cons]
    · rw [hlines, ← List.cons_append, List.getLast?_concat]
    · exact block_content hclear description
  · have hread := Literal.read_quote hd []
    rw [List.append_nil] at hread
    exact ⟨_, Literal.description_quoted hn, fun _ => ⟨quote_one_line _, hread⟩,
      fun h => absurd h hn⟩

/-- A string says no two descriptions. -/
theorem Says.unique (h : Says margin description literal) (h' : Says margin other literal) :
    description = other := by
  by_cases hn : '\n' ∈ description
  · obtain ⟨⟨source, hread⟩, _, _, hcontent⟩ := h.block hn
    by_cases hn' : '\n' ∈ other
    · exact hcontent.symm.trans (h'.block hn').2.2.2
    · rw [(h'.quoted hn').2] at hread
      simp at hread
  · have hread := (h.quoted hn).2
    by_cases hn' : '\n' ∈ other
    · obtain ⟨⟨source, hread'⟩, _⟩ := h'.block hn'
      rw [hread'] at hread
      simp at hread
    · rw [(h'.quoted hn').2] at hread
      simpa using hread.symm

theorem description_shown (margin : String) {d : String} (hd : d ≠ "") :
    descriptionText true margin (some d)
      = String.ofList (descriptionChars margin.toList d.toList) := by
  unfold descriptionText
  split
  · contradiction
  · rename_i he
    exact absurd (Option.some.inj he) hd
  · rename_i he
    rw [if_pos rfl, Option.some.inj he]

theorem margin_blank {margin : String} (hm : margin ∈ ["", Sdl.margin]) :
    ∀ c ∈ margin.toList, c = ' ' := by
  simp only [List.mem_cons, List.not_mem_nil, or_false] at hm
  rcases hm with rfl | rfl <;> exact forall_of_all (by decide)

/-- A description is printed as one string on lines of its own, and nothing in it ends the string or
is lost: the string says the description, and no other description is printed the same way. -/
theorem description_literal {margin : String} (hm : margin ∈ ["", Sdl.margin]) {d : String}
    (hd : d ≠ "") :
    ∃ literal, descriptionText true margin (some d)
        = margin ++ String.ofList literal ++ "\n" ∧
      Says margin.toList d.toList literal ∧
      tokens? (descriptionText true margin (some d)) = some [.literal] ∧
      ∀ e, e ≠ "" → descriptionText true margin (some e) = descriptionText true margin (some d) →
        e = d := by
  have hblank := margin_blank hm
  have hchars {e : String} (he : e ≠ "") : e.toList ≠ [] := String.toList_eq_nil_iff.not.mpr he
  obtain ⟨literal, hl, hsays⟩ := says_of_chars hblank (hchars hd)
  refine ⟨literal, ?_, hsays, ?_, fun e he hsame => ?_⟩
  · rw [description_shown margin hd, hl]
    simp [String.append_assoc]
  · refine tokens_iff.mpr ⟨.between, [.literal], ?_, rfl, rfl⟩
    rw [description_shown margin hd, String.toList_ofList]
    exact run_description hblank _ (hchars hd)
  · obtain ⟨other, ho, hsays'⟩ := says_of_chars hblank (hchars he)
    rw [description_shown margin hd, description_shown margin he, String.ofList_inj, hl,
      ho] at hsame
    have hsame : other = literal := by simpa using hsame
    exact String.toList_inj.mp ((hsame ▸ hsays').unique hsays)

/-- Quotes in the lines of a description do not end its block string. -/
theorem description_literal_quotes : ∃ literal,
    descriptionText true Sdl.margin (some "  \"\"\"\"\n\n\\\"\"\" goes on")
      = Sdl.margin ++ String.ofList literal ++ "\n" ∧
    (∃ source, Literal.read? literal = some (.block source, [])) ∧
    Literal.content Sdl.margin.toList literal = "  \"\"\"\"\n\n\\\"\"\" goes on".toList := by
  obtain ⟨literal, hl, hsays, _⟩ := description_literal
    (by decide : Sdl.margin ∈ ["", Sdl.margin])
    (by decide : "  \"\"\"\"\n\n\\\"\"\" goes on" ≠ "")
  obtain ⟨hread, _, _, hcontent⟩ := hsays.block (by decide)
  exact ⟨literal, hl, hread, hcontent⟩

end Sdl

end SchemaHistory
