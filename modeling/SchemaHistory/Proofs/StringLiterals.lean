import SchemaHistory.Proofs.StringText
import SchemaHistory.Proofs.TextLiterals

namespace SchemaHistory.Sdl

/-- A string of schema text as a reader finds it. -/
inductive Literal where
  /-- One in quotes, with what it stands for. -/
  | quoted (text : List Char)
  /-- A block string, with what stands between its marks. -/
  | block (source : List Char)
deriving DecidableEq

namespace Literal

/-- Reads a string behind its first quote, as 16-bit units, up to the first quote that no backslash
escapes. A line does not end in it. -/
def scanQuoted (seen : List Nat) : List Char → Option (List Nat × List Char)
  | [] => none
  | '"' :: cs => some (seen.reverse, cs)
  | '\\' :: 'u' :: a :: b :: c :: d :: cs =>
    match Binary64.ofDigits? 16 [a, b, c, d] with
    | some unit => scanQuoted (unit :: seen) cs
    | none => none
  | '\\' :: e :: cs =>
    match Json.Token.unescape e with
    | some c => scanQuoted (c.toNat :: seen) cs
    | none => none
  | c :: cs => if c ∈ lineEnds then none else scanQuoted ((Text.unitsOf c).reverse ++ seen) cs

/-- Reads a block string behind its opening quotes, up to the first three quotes that no backslash
escapes. A backslash and three quotes are one escape. -/
def scanBlock : List Char → Option (List Char × List Char)
  | '\\' :: '"' :: '"' :: '"' :: cs =>
    (scanBlock cs).map fun r => ('\\' :: '"' :: '"' :: '"' :: r.1, r.2)
  | '"' :: '"' :: '"' :: cs => some ([], cs)
  | c :: cs => (scanBlock cs).map fun r => (c :: r.1, r.2)
  | [] => none

/-- Reads the string that a text starts with, and returns the rest of the text. -/
def read? : List Char → Option (Literal × List Char)
  | '"' :: '"' :: '"' :: cs => (scanBlock cs).map fun r => (block r.1, r.2)
  | '"' :: cs => (scanQuoted [] cs).map fun r => (quoted (Text.ofUnits r.1), r.2)
  | _ => none

/-- Puts three quotes for each escape of a block string. -/
def unescape : List Char → List Char
  | '\\' :: '"' :: '"' :: '"' :: cs => '"' :: '"' :: '"' :: unescape cs
  | c :: cs => c :: unescape cs
  | [] => []

/-- The strings that can be read as JSON mean the same here. -/
theorem quoted_of_json {seen : List Nat} {cs : List Char} {r : List Nat × List Char}
    (h : Json.Token.scanString seen cs = some r) : scanQuoted seen cs = some r := by
  fun_induction Json.Token.scanString seen cs with
  | case1 => contradiction
  | case2 => exact h
  | case3 seen a b c d cs unit hu ih =>
    rw [scanQuoted, hu]
    exact ih h
  | case4 => contradiction
  | case5 seen e cs hno c he ih =>
    rw [scanQuoted, he]
    · exact ih h
    · exact hno
  | case6 => contradiction
  | case7 => contradiction
  | case8 seen c cs hq hu he hc ih =>
    have hend : c ∉ lineEnds := by
      rintro hm
      simp only [lineEnds, List.mem_cons, List.not_mem_nil, or_false] at hm
      rcases hm with rfl | rfl <;> exact hc (by decide)
    rw [scanQuoted, if_neg hend]
    · exact ih h
    · exact hq
    · exact hu
    · exact he

/-- A quoted text is read as that text. -/
theorem read_quote {cs : List Char} (h : cs ≠ []) (rest : List Char) :
    read? (Json.quoteChars cs ++ rest) = some (.quoted cs, rest) := by
  have hq : Json.quoteChars cs ++ rest = '"' :: (cs.flatMap Json.escape ++ '"' :: rest) := by
    simp [Json.quoteChars]
  have hscan := quoted_of_json (Json.scan_chars [] cs rest)
  have hone : ∀ ds, cs.flatMap Json.escape ++ '"' :: rest ≠ '"' :: ds := by
    obtain ⟨c, cs, rfl⟩ := List.exists_cons_of_ne_nil h
    obtain ⟨d, ds, hd, hne⟩ := escape_head c
    intro es he
    rw [List.flatMap_cons, hd] at he
    exact hne (List.cons.inj he).1
  rw [hq, read?, hscan]
  · simp [Text.of_units_units]
  · exact fun ds hds => hone _ hds

variable {cs rest x : List Char}

/-- A quote at the start of an escaped text is the one that the text starts with. -/
theorem quote_of_escaped (hr : rest.head? ≠ some '"')
    (h : escapeTripleQuotes cs ++ rest = '"' :: x) :
    ∃ ds, cs = '"' :: ds ∧ x = escapeTripleQuotes ds ++ rest := by
  unfold escapeTripleQuotes at h
  split at h
  · exact absurd (List.cons.inj h).1 (by decide)
  · rename_i c ds _
    obtain ⟨rfl, rfl⟩ := List.cons.inj h
    exact ⟨ds, rfl, rfl⟩
  · exact absurd (congrArg List.head? h) hr

/-- An escaped text does not start with three quotes. -/
theorem escaped_not_triple (cs x : List Char) (hr : rest.head? ≠ some '"') :
    escapeTripleQuotes cs ++ rest ≠ '"' :: '"' :: '"' :: x := by
  intro h
  obtain ⟨ds, rfl, h1⟩ := quote_of_escaped hr h
  obtain ⟨es, rfl, h2⟩ := quote_of_escaped hr h1.symm
  obtain ⟨fs, rfl, h3⟩ := quote_of_escaped hr h2.symm
  exact absurd (List.cons.inj h).1 (by decide)

theorem scan_block_other {c : Char} (h : ∀ ds, c :: cs ≠ '"' :: '"' :: '"' :: ds)
    (hb : c = '\\' → ∀ ds, cs ≠ '"' :: '"' :: '"' :: ds) :
    scanBlock (c :: cs) = (scanBlock cs).map fun r => (c :: r.1, r.2) := by
  rw [scanBlock]
  · exact fun ds hc hds => hb hc ds hds
  · exact fun ds hc hds => h ds (by rw [hc, hds])

theorem unescape_other {c : Char} (hb : c = '\\' → ∀ ds, cs ≠ '"' :: '"' :: '"' :: ds) :
    unescape (c :: cs) = c :: unescape cs := by
  rw [unescape]
  exact fun ds hc hds => hb hc ds hds

/-- In a block string, characters stand for a text and do not close the string, if no quote follows
them. -/
structure Stands (source text : List Char) : Prop where
  passed : ∀ {rest}, rest.head? ≠ some '"' →
    scanBlock (source ++ rest) = (scanBlock rest).map fun r => (source ++ r.1, r.2)
  means : ∀ {rest}, rest.head? ≠ some '"' → unescape (source ++ rest) = text ++ unescape rest

/-- An escaped text stands for the text. -/
theorem stands_escaped (cs : List Char) : Stands (escapeTripleQuotes cs) cs where
  passed {rest} hr := by
    fun_induction escapeTripleQuotes cs with
    | case1 cs ih =>
      simp only [List.cons_append]
      rw [scanBlock, ih, Option.map_map]
      rfl
    | case2 c cs hno ih =>
      have hopen : ∀ ds, c :: (escapeTripleQuotes cs ++ rest) ≠ '"' :: '"' :: '"' :: ds := by
        intro ds he
        have h := escaped_not_triple (c :: cs) ds hr
        rw [escapeTripleQuotes] at h
        · exact h he
        · exact hno
      rw [List.cons_append, scan_block_other hopen fun _ x => escaped_not_triple cs x hr, ih,
        Option.map_map]
      rfl
    | case3 => simp
  means {rest} hr := by
    fun_induction escapeTripleQuotes cs with
    | case1 cs ih =>
      simp only [List.cons_append]
      rw [unescape, ih]
    | case2 c cs _ ih =>
      rw [List.cons_append, unescape_other fun _ x => escaped_not_triple cs x hr, ih,
        List.cons_append]
    | case3 => rfl

theorem scan_block_blank {c : Char} (h : c = ' ' ∨ c = '\n') (cs : List Char) :
    scanBlock (c :: cs) = (scanBlock cs).map fun r => (c :: r.1, r.2) := by
  rcases h with rfl | rfl <;> exact scan_block_other (by simp) (by simp)

theorem unescape_blank {c : Char} (h : c = ' ' ∨ c = '\n') (cs : List Char) :
    unescape (c :: cs) = c :: unescape cs := by
  rcases h with rfl | rfl <;> exact unescape_other (by simp)

theorem Stands.indented {margin source text : List Char} (hm : ∀ c ∈ margin, c = ' ')
    (h : Stands source text) : Stands (margin ++ source) (margin ++ text) := by
  induction margin with
  | nil => exact h
  | cons c cs ih =>
    obtain ⟨hc, hcs⟩ := List.forall_mem_cons.mp hm
    refine ⟨fun hr => ?_, fun hr => ?_⟩
    · rw [List.cons_append, List.cons_append, scan_block_blank (.inl hc), (ih hcs).passed hr,
        Option.map_map]
      rfl
    · rw [List.cons_append, List.cons_append, unescape_blank (.inl hc), (ih hcs).means hr,
        List.cons_append, List.cons_append]

theorem Stands.line {a b c d : List Char} (h : Stands a b) (h' : Stands c d) :
    Stands (a ++ '\n' :: c) (b ++ '\n' :: d) where
  passed {rest} hr := by
    have hn : ('\n' :: (c ++ rest)).head? ≠ some '"' := by simp
    rw [List.append_assoc, List.cons_append, h.passed hn, scan_block_blank (.inr rfl),
      h'.passed hr, Option.map_map, Option.map_map]
    simp [Function.comp_def]
  means {rest} hr := by
    have hn : ('\n' :: (c ++ rest)).head? ≠ some '"' := by simp
    rw [List.append_assoc, List.cons_append, h.means hn, unescape_blank (.inr rfl),
      h'.means hr, List.append_assoc, List.cons_append]

theorem Stands.lines {source text : List Char → List Char} {ls : List (List Char)} (hne : ls ≠ [])
    (h : ∀ l ∈ ls, Stands (source l) (text l)) :
    Stands (['\n'].intercalate (ls.map source)) (['\n'].intercalate (ls.map text)) := by
  induction ls with
  | nil => contradiction
  | cons l ls ih =>
    obtain ⟨hl, hls⟩ := List.forall_mem_cons.mp h
    cases ls with
    | nil => simpa using hl
    | cons l' ls =>
      have hrest := hl.line (ih (List.cons_ne_nil _ _) hls)
      simpa using hrest

theorem unescape_self (cs : List Char) : unescape (escapeTripleQuotes cs) = cs := by
  have h := @Stands.means _ _ (stands_escaped cs) [] (by simp)
  rwa [List.append_nil, unescape, List.append_nil] at h

theorem escaped_empty (cs : List Char) : (escapeTripleQuotes cs).isEmpty = cs.isEmpty := by
  unfold escapeTripleQuotes
  split <;> rfl

theorem stands_line {margin : List Char} (hm : ∀ c ∈ margin, c = ' ') (line : List Char) :
    Stands (indentLine margin (escapeTripleQuotes line)) (indentLine margin line) := by
  unfold indentLine
  rw [escaped_empty]
  split
  · exact stands_escaped []
  · exact (stands_escaped line).indented hm

/-- What stands between the marks of the block string of a description. -/
def source (margin description : List Char) : List Char :=
  '\n' :: (['\n'].intercalate (((escapeTripleQuotes description).splitOn '\n').map
    (indentLine margin)) ++ '\n' :: margin)

variable {margin description : List Char}

theorem description_block (h : '\n' ∈ description) :
    descriptionChars margin description
      = margin ++ (tripleQuote ++ source margin description ++ tripleQuote) ++ ['\n'] := by
  rw [descriptionChars, if_pos h]
  simp [source]

theorem description_quoted (h : '\n' ∉ description) :
    descriptionChars margin description = margin ++ Json.quoteChars description ++ ['\n'] :=
  if_neg h

theorem stands_lines (hm : ∀ c ∈ margin, c = ' ') (description : List Char) :
    Stands (['\n'].intercalate (((escapeTripleQuotes description).splitOn '\n').map
        (indentLine margin)))
      (['\n'].intercalate ((description.splitOn '\n').map (indentLine margin))) := by
  rw [escape_lines, List.map_map]
  exact Stands.lines (List.splitOn_ne_nil _ _) fun l _ => stands_line hm l

theorem scan_block_close (hm : ∀ c ∈ margin, c = ' ') (rest : List Char) :
    scanBlock (margin ++ (tripleQuote ++ rest)) = some (margin, rest) := by
  induction margin with
  | nil => rfl
  | cons c cs ih =>
    obtain ⟨hc, hcs⟩ := List.forall_mem_cons.mp hm
    rw [List.cons_append, scan_block_blank (.inl hc), ih hcs]
    rfl

/-- The block string of a description ends with its own last mark. -/
theorem read_block (hm : ∀ c ∈ margin, c = ' ') (description rest : List Char) :
    read? (tripleQuote ++ source margin description ++ tripleQuote ++ rest)
      = some (.block (source margin description), rest) := by
  have hscan : scanBlock (source margin description ++ (tripleQuote ++ rest))
      = some (source margin description, rest) := by
    have hn : ('\n' :: (margin ++ (tripleQuote ++ rest))).head? ≠ some '"' := by simp
    rw [source, List.cons_append, List.append_assoc, List.cons_append,
      scan_block_blank (.inr rfl), (stands_lines hm description).passed hn,
      scan_block_blank (.inr rfl), scan_block_close hm]
    rfl
  rw [List.append_assoc, List.append_assoc]
  change (scanBlock (source margin description ++ (tripleQuote ++ rest))).map _ = _
  rw [hscan]
  rfl

end Literal

end SchemaHistory.Sdl
