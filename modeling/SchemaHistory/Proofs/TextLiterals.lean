import SchemaHistory.Proofs.TextTokens

namespace SchemaHistory.Sdl

open Scan

/-- An escaped character does not end a string. -/
theorem run_escaped (c : Char) : quoted.run (Json.escape c) = (quoted, []) := by
  have hhex : ∀ n < 0x20, quoted.run
      ['\\', 'u', '0', '0', Json.hexDigit (n / 16), Json.hexDigit (n % 16)] = (quoted, []) := by
    decide
  unfold Json.escape
  split
  case h_8 hq hb _ _ hn _ hr =>
    split
    · rename_i hc
      exact hhex _ hc
    · have hend : c ∉ lineEnds := by
        rw [lineEnds, List.mem_cons, List.mem_singleton]
        exact not_or.mpr ⟨hn, hr⟩
      rw [run, run, step, stepQuoted, if_neg hq, if_neg hb, if_neg hend]
      rfl
  all_goals decide

theorem run_quoted (cs : List Char) :
    quoted.run (cs.flatMap Json.escape ++ ['"']) = (between, [.literal]) := by
  induction cs with
  | nil => rfl
  | cons c cs ih =>
    rw [List.flatMap_cons, List.append_assoc]
    exact run_trans (run_escaped c) ih

/-- What is written for a character does not start with a quote. -/
theorem escape_head (c : Char) : ∃ d ds, Json.escape c = d :: ds ∧ d ≠ '"' := by
  unfold Json.escape
  split
  case h_8 hq _ _ _ _ _ _ =>
    split
    · exact ⟨_, _, rfl, by decide⟩
    · exact ⟨_, _, rfl, hq⟩
  all_goals exact ⟨_, _, rfl, by decide⟩

theorem run_opened (c : Char) (cs : List Char) :
    quote.run (Json.escape c ++ cs) = quoted.run (Json.escape c ++ cs) := by
  obtain ⟨d, ds, hd, hne⟩ := escape_head c
  rw [hd, List.cons_append, run, run, step, step, if_neg hne]

theorem run_quote {cs : List Char} (h : cs ≠ []) :
    between.run (Json.quoteChars cs) = (between, [.literal]) := by
  cases cs with
  | nil => contradiction
  | cons c cs =>
    have hstep : between.step '"' = (quote, []) := rfl
    rw [Json.quoteChars, run_cons hstep, List.flatMap_cons, List.append_assoc, run_opened,
      ← List.append_assoc, ← List.flatMap_cons, run_quoted]
    rfl

/-- A quoted text is one literal. -/
theorem tokens_quote (text : String) : tokens? (Json.quote text) = some [.literal] := by
  rw [tokens?, Json.quote, String.toList_ofList]
  by_cases h : text.toList = []
  · rw [h]
    rfl
  · rw [run_quote h]
    rfl

/-- A place in a block string, and characters that do not close the block string there unless three
quotes stand together in them. -/
def Scan.IsCalm : Scan → List Char → Prop
  | block n, cs => n = 0 ∨ n = 1 ∧ ¬['"', '"'] <+: cs ∨ n = 2 ∧ ¬['"'] <+: cs
  | escaping _, _ => True
  | _, _ => False

theorem step_block {s : Scan} {cs : List Char} (h : s.IsCalm cs) {c : Char} (hc : c ≠ '"') :
    s.step c = (stepBlock c, []) := by
  cases s with
  | block n => exact if_neg hc
  | escaping n => rw [step, if_neg hc]
  | _ => exact h.elim

theorem step_block_calm (c : Char) (cs : List Char) : (stepBlock c).IsCalm cs := by
  unfold stepBlock
  split
  · exact trivial
  · exact .inl rfl

/-- A quote that does not start three is not the last of three either. -/
theorem step_block_quote {s : Scan} {cs : List Char} (h : s.IsCalm ('"' :: cs))
    (hc : ¬['"', '"'] <+: cs) : ∃ next, s.step '"' = (next, []) ∧ next.IsCalm cs := by
  cases s with
  | block n =>
    rcases h with rfl | ⟨rfl, h⟩ | ⟨rfl, h⟩
    · exact ⟨.block 1, rfl, .inr (.inl ⟨rfl, hc⟩)⟩
    · refine ⟨.block 2, rfl, .inr (.inr ⟨rfl, fun hp => h ?_⟩)⟩
      exact (List.prefix_cons_inj _).mpr hp
    · exact absurd (List.prefix_append ['"'] cs) h
  | escaping n =>
    by_cases hn : n = 2
    · exact ⟨.block 0, by rw [step, if_pos rfl, if_pos hn], .inl rfl⟩
    · exact ⟨escaping (n + 1), by rw [step, if_pos rfl, if_neg hn], trivial⟩
  | _ => exact h.elim

/-- Text whose runs of three quotes are escaped does not close a block string. -/
theorem run_escapes {s : Scan} {cs : List Char} (h : s.IsCalm cs) :
    ∃ last, s.run (escapeTripleQuotes cs) = (last, []) ∧ last.IsCalm [] := by
  fun_induction escapeTripleQuotes cs generalizing s with
  | case1 cs ih =>
    obtain ⟨last, hrun, hlast⟩ := @ih (.block 0) (.inl rfl)
    refine ⟨last, ?_, hlast⟩
    have hstep : s.step '\\' = (escaping 0, []) := step_block h (by decide)
    rw [run_cons hstep]
    exact congrArg₂ _ (congrArg Prod.fst hrun) (congrArg Prod.snd hrun)
  | case2 c cs hno ih =>
    have hnext : ∃ next, s.step c = (next, []) ∧ next.IsCalm cs := by
      by_cases hc : c = '"'
      · subst hc
        refine step_block_quote h ?_
        rintro ⟨rest, rfl⟩
        exact hno rest rfl rfl
      · exact ⟨_, step_block h hc, step_block_calm c cs⟩
    obtain ⟨next, hstep, hcalm⟩ := hnext
    obtain ⟨last, hrun, hlast⟩ := ih hcalm
    refine ⟨last, ?_, hlast⟩
    rw [run_cons hstep, hrun]
    rfl
  | case3 => exact ⟨s, rfl, h⟩

theorem mem_escapes {c : Char} {cs : List Char} (hc : c ≠ '\\') (h : c ∈ escapeTripleQuotes cs) :
    c ∈ cs := by
  fun_induction escapeTripleQuotes cs with
  | case1 cs ih =>
    simp only [List.mem_cons, hc, false_or] at h ⊢
    exact h.imp_right (Or.imp_right (Or.imp_right ih))
  | case2 d cs _ ih =>
    rcases List.mem_cons.mp h with rfl | h
    · exact List.mem_cons_self
    · exact List.mem_cons_of_mem _ (ih h)
  | case3 => exact h

/-- Quotes of two lines are not escaped together. -/
theorem escape_line_end (l rest : List Char) :
    escapeTripleQuotes (l ++ '\n' :: rest)
      = escapeTripleQuotes l ++ '\n' :: escapeTripleQuotes rest := by
  fun_induction escapeTripleQuotes l with
  | case1 cs ih => simp [escapeTripleQuotes, ih]
  | case2 c cs hno ih =>
    rw [List.cons_append, escapeTripleQuotes, ih, List.cons_append]
    intro ds hc hds
    cases cs with
    | nil => exact absurd (List.cons.inj hds).1 (by decide)
    | cons d cs =>
      obtain ⟨hd, hds⟩ := List.cons.inj hds
      cases cs with
      | nil => exact absurd (List.cons.inj hds).1 (by decide)
      | cons e cs =>
        obtain ⟨he, _⟩ := List.cons.inj hds
        exact hno cs hc (by rw [hd, he])
  | case3 => simp [escapeTripleQuotes]

/-- Escaping goes by lines. -/
theorem escape_lines (cs : List Char) :
    (escapeTripleQuotes cs).splitOn '\n' = (cs.splitOn '\n').map escapeTripleQuotes := by
  -- On the length: what stands behind the first line end is shorter.
  induction hn : cs.length using Nat.strong_induction_on generalizing cs with
  | _ n ih =>
    by_cases hm : '\n' ∈ cs
    · obtain ⟨l, rest, rfl, hl⟩ := List.eq_append_cons_of_mem hm
      have hlt : rest.length < n := by
        rw [← hn, List.length_append, List.length_cons]
        omega
      have hel : '\n' ∉ escapeTripleQuotes l := fun h => hl (mem_escapes (by decide) h)
      rw [escape_line_end, List.splitOn_append_cons_self_of_not_mem hel,
        List.splitOn_append_cons_self_of_not_mem hl, ih _ hlt rest rfl, List.map_cons]
    · rw [List.splitOn_eq_singleton hm,
        List.splitOn_eq_singleton fun h => hm (mem_escapes (by decide) h), List.map_singleton]

theorem run_blanks {s : Scan} (hs : s = between ∨ s = .block 0) {margin : List Char}
    (hm : ∀ c ∈ margin, c = ' ') : s.run margin = (s, []) := by
  induction margin with
  | nil => rfl
  | cons c cs ih =>
    obtain ⟨rfl, hcs⟩ := List.forall_mem_cons.mp hm
    have hstep : s.step ' ' = (s, []) := by
      rcases hs with rfl | rfl <;> rfl
    rw [run_cons hstep, ih hcs]
    rfl

/-- A line of a block string, up to the next one. -/
theorem run_block_line {margin : List Char} (hm : ∀ c ∈ margin, c = ' ') (line : List Char) :
    (Scan.block 0).run (indentLine margin (escapeTripleQuotes line) ++ ['\n'])
      = (.block 0, []) := by
  have hindent : (Scan.block 0).run (indentLine margin (escapeTripleQuotes line))
      = (Scan.block 0).run (escapeTripleQuotes line) := by
    unfold indentLine
    split
    · rename_i he
      rw [List.isEmpty_iff.mp he]
    · rw [run_append, run_blanks (.inr rfl) hm]
      rfl
  obtain ⟨last, hrun, hcalm⟩ := @run_escapes (.block 0) line (.inl rfl)
  have hend : last.run ['\n'] = (.block 0, []) := run_cons (step_block hcalm (by decide)) []
  exact run_trans (hindent.trans hrun) hend

theorem run_block_lines {margin : List Char} (hm : ∀ c ∈ margin, c = ' ')
    {lines : List (List Char)} (hne : lines ≠ []) :
    (Scan.block 0).run
      (['\n'].intercalate (lines.map (indentLine margin ∘ escapeTripleQuotes)) ++ ['\n'])
      = (.block 0, []) := by
  induction lines with
  | nil => contradiction
  | cons l ls ih =>
    cases ls with
    | nil =>
      rw [List.map_singleton, List.intercalate_singleton]
      exact run_block_line hm l
    | cons l' ls =>
      have hrest := ih (List.cons_ne_nil _ _)
      rw [List.map_cons] at hrest
      rw [List.map_cons, List.map_cons, List.intercalate_cons_cons, List.append_assoc]
      exact run_trans (run_block_line hm l) hrest

/-- A description is one literal, whatever it says. -/
theorem run_description {margin : List Char} (hm : ∀ c ∈ margin, c = ' ')
    (description : List Char) (hd : description ≠ []) :
    between.run (descriptionChars margin description) = (between, [.literal]) := by
  have hmargin : between.run margin = (between, []) := run_blanks (.inl rfl) hm
  unfold descriptionChars
  split
  · have hopen : between.run (tripleQuote ++ ['\n']) = (.block 0, []) := rfl
    have hclose : (Scan.block 0).run (tripleQuote ++ ['\n']) = (between, [.literal]) := rfl
    have hlines := run_block_lines hm (List.splitOn_ne_nil '\n' description)
    have hbody := run_trans (run_trans hmargin hopen)
      (run_trans hlines (run_trans (run_blanks (.inr rfl) hm) hclose))
    rw [escape_lines, List.map_map]
    simpa using hbody
  · have hend : between.run ['\n'] = (between, []) := rfl
    exact run_trans (run_trans hmargin (run_quote hd)) hend

end SchemaHistory.Sdl
