import SchemaHistory.Proofs.Naming

namespace SchemaHistory.Sdl

/-- A unit of schema text. What a number or a string holds is left out. -/
inductive Token where
  | name (text : String)
  | number
  | literal
  | mark (c : Char)
deriving DecidableEq

/-- Where a reader stands in schema text. -/
inductive Scan where
  | between
  /-- In a name: its characters so far, last one first. -/
  | name (seen : List Char)
  | number
  | comment
  /-- Behind a quote that opens a string. -/
  | quote
  /-- Behind two quotes: an empty string, or a block string that is about to open. -/
  | quotes
  | quoted
  | escape
  /-- In a block string, behind so many quotes. -/
  | block (quotes : Nat)
  /-- In a block string, behind a backslash and so many quotes. -/
  | escaping (quotes : Nat)
  | stuck
deriving DecidableEq

/-- Characters that part tokens and mean nothing else. -/
def gaps : List Char :=
  [' ', '\n', ',', '\t', '\r', '\uFEFF']

/-- Characters that are tokens. -/
def marks : List Char :=
  ['{', '}', '(', ')', '[', ']', ':', '=', '!', '|', '&', '@', '$']

def lineEnds : List Char :=
  ['\n', '\r']

namespace Scan

/-- The first character of a token, or one that stands between tokens. -/
def start (c : Char) : Scan × List Token :=
  if c ∈ gaps then (between, [])
  else if c ∈ marks then (between, [.mark c])
  else if isNameStart c then (name [c], [])
  else if c.isDigit || c == '-' then (number, [])
  else if c = '"' then (quote, [])
  else if c = '#' then (comment, [])
  else (stuck, [])

/-- The token that ends where a reader stands, if the text does not go on with it. -/
def pending : Scan → List Token
  | name seen => [.name (String.ofList seen.reverse)]
  | number => [.number]
  | quotes => [.literal]
  | _ => []

/-- Ends a token with a character that is not part of it. -/
def leave (s : Scan) (c : Char) : Scan × List Token :=
  ((start c).1, s.pending ++ (start c).2)

def stepQuoted (c : Char) : Scan × List Token :=
  if c = '"' then (between, [.literal])
  else if c = '\\' then (escape, [])
  else if c ∈ lineEnds then (stuck, [])
  else (quoted, [])

/-- A character of a block string that is no quote. -/
def stepBlock (c : Char) : Scan :=
  if c = '\\' then escaping 0 else block 0

/-- Goes on by a character. Returns the token that ends there. -/
def step (s : Scan) (c : Char) : Scan × List Token :=
  match s with
  | between => start c
  | name seen => if isNameChar c then (name (c :: seen), []) else s.leave c
  | number => if isNameChar c || c ∈ ['.', '+', '-'] then (number, []) else s.leave c
  | comment => (if c ∈ lineEnds then between else comment, [])
  | quote => if c = '"' then (quotes, []) else stepQuoted c
  | quotes => if c = '"' then (block 0, []) else s.leave c
  | quoted => stepQuoted c
  | escape => (if c ∈ lineEnds then stuck else quoted, [])
  | block n =>
    if c = '"' then if n = 2 then (between, [.literal]) else (block (n + 1), [])
    else (stepBlock c, [])
  | escaping n =>
    if c = '"' then (if n = 2 then block 0 else escaping (n + 1), []) else (stepBlock c, [])
  | stuck => (stuck, [])

def run (s : Scan) : List Char → Scan × List Token
  | [] => (s, [])
  | c :: cs =>
    let next := s.step c
    let last := next.1.run cs
    (last.1, next.2 ++ last.2)

/-- Whether a text can end where a reader stands. A comment ends with its line, not before. -/
def isComplete : Scan → Bool
  | between | name _ | number | quotes => true
  | _ => false

theorem run_cons {s next : Scan} {c : Char} {ended : List Token} (h : s.step c = (next, ended))
    (cs : List Char) : s.run (c :: cs) = ((next.run cs).1, ended ++ (next.run cs).2) := by
  rw [run, h]

theorem run_append (s : Scan) (a b : List Char) :
    s.run (a ++ b) = (((s.run a).1.run b).1, (s.run a).2 ++ ((s.run a).1.run b).2) := by
  induction a generalizing s with
  | nil => rfl
  | cons c a ih => simp only [List.cons_append, run, ih, List.append_assoc]

theorem run_trans {s t u : Scan} {a b : List Char} {ts us : List Token} (ha : s.run a = (t, ts))
    (hb : t.run b = (u, us)) : s.run (a ++ b) = (u, ts ++ us) := by
  rw [run_append, ha, hb]

theorem separators_part {c : Char} (hc : c ∈ gaps ++ marks) :
    isNameChar c = false ∧ c ∉ ['.', '+', '-'] ∧ c ≠ '"' := by
  have hall : (gaps ++ marks).all fun c =>
      decide (isNameChar c = false ∧ c ∉ ['.', '+', '-'] ∧ c ≠ '"') := by decide
  exact of_decide_eq_true (List.all_eq_true.mp hall c hc)

/-- The tokens that separators make. -/
def markTokens (cs : List Char) : List Token :=
  cs.flatMap fun c => if c ∈ marks then [.mark c] else []

theorem start_separator {c : Char} (hc : c ∈ gaps ++ marks) :
    start c = (between, markTokens [c]) := by
  have hall : (gaps ++ marks).all fun c => decide (start c = (between, markTokens [c])) := by decide
  exact of_decide_eq_true (List.all_eq_true.mp hall c hc)

/-- A separator ends the token before it. -/
theorem step_separator {s : Scan} (hs : s.isComplete = true) {c : Char} (hc : c ∈ gaps ++ marks) :
    s.step c = (between, s.pending ++ markTokens [c]) := by
  obtain ⟨hname, hsign, hquote⟩ := separators_part hc
  have hleave : s.leave c = (between, s.pending ++ markTokens [c]) := by
    rw [leave, start_separator hc]
  cases s with
  | between => exact start_separator hc
  | name seen => rw [step, hname, if_neg Bool.false_ne_true, hleave]
  | number =>
    rw [step, hname, decide_eq_false hsign, Bool.or_self, if_neg Bool.false_ne_true, hleave]
  | quotes => rw [step, if_neg hquote, hleave]
  | _ => cases hs

theorem run_separators {s : Scan} (hs : s.isComplete = true) {cs : List Char} (hne : cs ≠ [])
    (hcs : ∀ c ∈ cs, c ∈ gaps ++ marks) : s.run cs = (between, s.pending ++ markTokens cs) := by
  induction cs generalizing s with
  | nil => contradiction
  | cons c cs ih =>
    obtain ⟨hc, hrest⟩ := List.forall_mem_cons.mp hcs
    rw [run_cons (step_separator hs hc)]
    cases cs with
    | nil => rw [run, List.append_nil]
    | cons d ds =>
      have hbetween : between.isComplete = true := rfl
      rw [ih hbetween (List.cons_ne_nil _ _) hrest]
      simp [pending, markTokens]

end Scan

open Scan

/-- The tokens of a text, if it ends where a text can end. -/
def tokens? (text : String) : Option (List Token) :=
  let last := between.run text.toList
  if last.1.isComplete then some (last.2 ++ last.1.pending) else none

theorem tokens_iff {text : String} {ts : List Token} :
    tokens? text = some ts ↔ ∃ last ended, between.run text.toList = (last, ended) ∧
      last.isComplete = true ∧ ended ++ last.pending = ts := by
  rw [tokens?]
  constructor
  · intro h
    split at h
    · rename_i hs
      exact ⟨_, _, rfl, hs, Option.some.inj h⟩
    · contradiction
  · rintro ⟨last, ended, hrun, hs, rfl⟩
    rw [hrun]
    exact if_pos hs

/-- A text that ends between tokens does not change how the next one is read. -/
theorem tokens_after {a b : String} {ts us : List Token} (ha : between.run a.toList = (between, ts))
    (hb : tokens? b = some us) : tokens? (a ++ b) = some (ts ++ us) := by
  obtain ⟨last, ended, hrun, hs, rfl⟩ := tokens_iff.mp hb
  refine tokens_iff.mpr ⟨last, ts ++ ended, ?_, hs, List.append_assoc _ _ _⟩
  rw [String.toList_append]
  exact run_trans ha hrun

def IsSeparator (sep : String) : Prop :=
  sep.toList ≠ [] ∧ sep.toList.all fun c => decide (c ∈ gaps ++ marks)

instance (sep : String) : Decidable (IsSeparator sep) :=
  inferInstanceAs (Decidable (_ ∧ _))

/-- Texts with separators between them are read one by one. -/
theorem tokens_join {a sep b : String} {ts us : List Token} (hs : IsSeparator sep)
    (ha : tokens? a = some ts) (hb : tokens? b = some us) :
    tokens? (a ++ sep ++ b) = some (ts ++ markTokens sep.toList ++ us) := by
  obtain ⟨last, ended, hrun, hlast, rfl⟩ := tokens_iff.mp ha
  refine tokens_after ?_ hb
  rw [String.toList_append, List.append_assoc]
  exact run_trans hrun (run_separators hlast hs.1 fun c hc =>
    of_decide_eq_true (List.all_eq_true.mp hs.2 c hc))

theorem run_name {seen cs : List Char} (h : ∀ c ∈ cs, isNameChar c = true) :
    (Scan.name seen).run cs = (.name (cs.reverse ++ seen), []) := by
  induction cs generalizing seen with
  | nil => rfl
  | cons c cs ih =>
    obtain ⟨hc, hrest⟩ := List.forall_mem_cons.mp h
    have hstep : (Scan.name seen).step c = (.name (c :: seen), []) := if_pos hc
    rw [run_cons hstep, ih hrest]
    simp

theorem step_name {c : Char} (h : isNameStart c = true) :
    between.step c = (.name [c], []) := by
  have hpart : c ∉ gaps ++ marks := by
    intro hm
    have hn := (separators_part hm).1
    rw [isNameChar, h, Bool.true_or] at hn
    contradiction
  rw [List.mem_append, not_or] at hpart
  rw [step, start, if_neg hpart.1, if_neg hpart.2, if_pos h]

theorem tokens_name {text : String} (h : IsName text) : tokens? text = some [.name text] := by
  have hchars := h.chars
  cases hcs : text.toList with
  | nil => exact absurd hcs h.nonempty
  | cons c cs =>
    rw [hcs] at hchars
    rw [IsName, hcs, isName, Bool.and_eq_true] at h
    refine tokens_iff.mpr ⟨.name (cs.reverse ++ [c]), [], ?_, rfl, ?_⟩
    · rw [hcs, run_cons (step_name h.1), run_name (List.forall_mem_cons.mp hchars).2]
      rfl
    · rw [pending, List.reverse_append, List.reverse_reverse, List.reverse_singleton,
        List.singleton_append, ← hcs, String.ofList_toList]
      rfl

end SchemaHistory.Sdl
