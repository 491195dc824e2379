import Mathlib.Data.List.DropRight
import SchemaHistory.Json.Lenient
import SchemaHistory.Proofs.JsonText
import SchemaHistory.Proofs.TokenGrammar

namespace SchemaHistory.Json

open Binary64 (NumberEnd)
open Binary64.Numeral (Written chars fractionChars Power)
open Token (Spells isSpace)

/-- A character that is no blank, and has no part in a comma before a closing bracket. -/
def Inert (c : Char) : Prop :=
  c ≠ ',' ∧ c ≠ ']' ∧ c ≠ '}' ∧ Text.isBlank c = false

instance (c : Char) : Decidable (Inert c) :=
  inferInstanceAs (Decidable (_ ∧ _))

theorem inert_of_range {c : Char} (h : 48 ≤ c.toNat ∧ c.toNat ≤ 70 ∨ 97 ≤ c.toNat ∧ c.toNat ≤ 102) :
    Inert c := by
  have hne {d : Char} (hd : d.toNat < 48 ∨ 70 < d.toNat ∧ d.toNat < 97 ∨ 102 < d.toNat) :
      c ≠ d := by
    rintro rfl
    omega
  refine ⟨hne (by decide), hne (by decide), hne (by decide), ?_⟩
  rw [Text.isBlank, List.any_eq_false]
  simp only [Text.blankRanges, List.forall_mem_cons, Bool.and_eq_true, decide_eq_true_eq,
    List.not_mem_nil, false_implies, implies_true, and_true]
  omega

theorem digit_inert {c : Char} (hc : c.isDigit = true) : Inert c := by
  obtain ⟨hl, hu⟩ := Bool.and_eq_true_iff.mp hc
  have hl : 48 ≤ c.toNat := of_decide_eq_true hl
  have hu : c.toNat ≤ 57 := of_decide_eq_true hu
  exact inert_of_range (by omega)

theorem hex_inert {c : Char} (h : Binary64.digitValue c ≠ none) : Inert c := by
  unfold Binary64.digitValue at h
  split at h
  · rename_i hc
    exact digit_inert hc
  · split at h
    · rename_i hc
      exact inert_of_range (.inr hc)
    · split at h
      · rename_i hc
        have hl : 65 ≤ c.toNat := hc.1
        have hu : c.toNat ≤ 70 := hc.2
        exact inert_of_range (by omega)
      · contradiction

theorem digits_inert {base n m : Nat} {cs : List Char}
    (h : cs.foldlM (fun n c => (Binary64.digitValue c).bind fun d =>
      if d < base then some (base * n + d) else none) n = some m) : ∀ c ∈ cs, Inert c := by
  induction cs generalizing n with
  | nil => simp
  | cons c cs ih =>
    rw [List.foldlM_cons] at h
    obtain ⟨k, hk, h⟩ := Option.bind_eq_some_iff.mp h
    obtain ⟨d, hd, -⟩ := Option.bind_eq_some_iff.mp hk
    exact List.forall_mem_cons.mpr ⟨hex_inert (by simp [hd]), ih h⟩

theorem hex_digits_inert {cs : List Char} {u : Nat} (h : Binary64.ofDigits? 16 cs = some u) :
    ∀ c ∈ cs, Inert c := by
  unfold Binary64.ofDigits? at h
  split at h
  · contradiction
  · exact digits_inert h

variable {n : Binary64.Numeral} {power s cs rest : List Char} {t : Token} {e : Int}

theorem power_inert (h : Power power e) : ∀ c ∈ power, Inert c := by
  cases h with
  | none => simp
  | some hm hs _ hd =>
    simp only [List.forall_mem_cons, List.forall_mem_append]
    simp only [List.mem_cons, List.not_mem_nil, or_false] at hs
    refine ⟨?_, ?_, fun c hc => digit_inert (hd c hc)⟩
    · rcases hm with rfl | rfl <;> decide
    · rcases hs with rfl | rfl | rfl <;> exact forall_of_all (by decide)

theorem number_inert (h : Written n power) :
    ∀ c ∈ Token.signChars n.negative ++ chars n power, Inert c := by
  have hf : ∀ c ∈ fractionChars n.fraction, Inert c := by
    cases hn : n.fraction with
    | none => simp [fractionChars]
    | some ds =>
      rw [fractionChars, List.forall_mem_cons]
      exact ⟨by decide, fun c hc => digit_inert (h.fraction ds hn c hc)⟩
  simp only [chars, List.forall_mem_append]
  refine ⟨?_, fun c hc => digit_inert (h.whole.2 c hc), hf, power_inert h.power⟩
  cases n.negative <;> exact forall_of_all (by decide)

theorem number_head (h : Written n power) :
    ∀ c ∈ (Token.signChars n.negative ++ chars n power).head?, c ≠ '.' ∧ c ≠ 'e' ∧ c ≠ 'E' := by
  obtain ⟨d, ds, hd⟩ := List.exists_cons_of_ne_nil h.whole.1
  have hdigit : d.isDigit = true := h.whole.2 d (hd ▸ List.mem_cons_self)
  rw [chars, hd]
  cases n.negative with
  | true =>
    rintro c ⟨⟩
    decide
  | false =>
    rintro c ⟨⟩
    refine ⟨?_, ?_, ?_⟩ <;> rintro rfl <;> contradiction

/-- A text that starts and ends with no blank, and goes on with no number. -/
structure Solid (s : List Char) : Prop where
  nonempty : s ≠ []
  head : ∀ c ∈ s.head?, Text.isBlank c = false ∧ c ≠ '.' ∧ c ≠ 'e' ∧ c ≠ 'E'
  last : ∀ c ∈ s.getLast?, Text.isBlank c = false

theorem Token.Spells.solid (h : Spells s t) : Solid s := by
  cases h with
  | fixed h =>
    have hall : ∀ p ∈ Token.fixedTexts, p.1 ≠ [] ∧
        (p.1.head?.toList.all fun c =>
          decide (Text.isBlank c = false ∧ c ≠ '.' ∧ c ≠ 'e' ∧ c ≠ 'E')) = true ∧
        (p.1.getLast?.toList.all fun c => decide (Text.isBlank c = false)) = true := by
      decide
    obtain ⟨hne, hhead, hlast⟩ := hall _ h
    exact ⟨hne, fun c hc => forall_of_all hhead c (Option.mem_toList.mpr hc),
      fun c hc => forall_of_all hlast c (Option.mem_toList.mpr hc)⟩
  | @string cs =>
    refine ⟨List.cons_ne_nil _ _, ?_, ?_⟩
    · rintro c ⟨⟩
      decide
    · rw [← List.cons_append, List.getLast?_concat]
      rintro c ⟨⟩
      decide
  | @number n power h =>
    have hinert := number_inert h
    refine ⟨?_, fun c hc => ⟨?_, number_head h c hc⟩, fun c hc => ?_⟩
    · exact List.append_ne_nil_of_right_ne_nil _ (List.append_ne_nil_of_left_ne_nil h.whole.1 _)
    · exact (hinert c (List.mem_of_mem_head? hc)).2.2.2
    · exact (hinert c (List.mem_of_mem_getLast? hc)).2.2.2

/-- A token with the characters that spell it. -/
structure Lexeme where
  chars : List Char
  token : Token
  spells : Spells chars token

/-- A text is made of these tokens, with blanks between them. A number does not go on behind its
characters. -/
inductive Lexed : List Char → List Lexeme → Prop
  | nil : Lexed [] []
  | space {c : Char} {cs : List Char} {ls : List Lexeme} (hc : isSpace c = true)
    (h : Lexed cs ls) : Lexed (c :: cs) ls
  | lexeme {cs : List Char} {ls : List Lexeme} (l : Lexeme) (he : l.token.EndsBefore cs)
    (h : Lexed cs ls) : Lexed (l.chars ++ cs) (l :: ls)

variable {ls : List Lexeme} {ts seen : List Token}

theorem scan_of_lexed (h : Lexed cs ls) (seen : List Token) :
    Token.scan seen cs = some (seen.reverse ++ ls.map Lexeme.token) := by
  induction h generalizing seen with
  | nil => simp [Token.scan_nil]
  | space hc _ ih => rw [Token.scan_space hc, ih]
  | lexeme l he _ ih =>
    rw [Token.scan_token (Token.read_of_spells l.spells he), ih]
    simp

theorem space_blank {c : Char} (h : isSpace c = true) :
    Text.isBlank c = true ∧ c.isDigit = false ∧ c ≠ '.' ∧ c ≠ 'e' ∧ c ≠ 'E' := by
  simp only [isSpace, Bool.or_eq_true, beq_iff_eq] at h
  rcases h with ((rfl | rfl) | rfl) | rfl <;> decide

theorem Lexed.head (h : Lexed cs ls) : ∀ c ∈ cs.head?, c ≠ '.' ∧ c ≠ 'e' ∧ c ≠ 'E' := by
  cases h with
  | nil => simp
  | space hc =>
    rintro c ⟨⟩
    exact (space_blank hc).2.2
  | lexeme l =>
    rw [List.head?_append_of_ne_nil _ l.spells.solid.nonempty]
    exact fun c hc => (l.spells.solid.head c hc).2

theorem Lexed.spaces {space : List Char} (hs : ∀ c ∈ space, isSpace c = true)
    (h : Lexed cs ls) : Lexed (space ++ cs) ls := by
  induction space with
  | nil => exact h
  | cons c space ih =>
    obtain ⟨hc, hs⟩ := List.forall_mem_cons.mp hs
    exact .space hc (ih hs)

theorem lexed_of_scan (h : Token.scan seen cs = some ts) :
    ∃ ls, Lexed cs ls ∧ ts = seen.reverse ++ ls.map Lexeme.token := by
  fun_induction Token.scan seen cs with
  | case1 seen cs hs =>
    cases h
    have hl := Lexed.nil.spaces (List.dropWhile_eq_nil_iff.mp hs)
    exact ⟨[], List.append_nil cs ▸ hl, by simp⟩
  | case2 => contradiction
  | case3 seen cs c cs' hs t rest ht ih =>
    obtain ⟨ls, hl, rfl⟩ := ih h
    obtain ⟨s, hcs, hspells, hstop⟩ := Token.spells_of_read ht
    have hend : t.EndsBefore rest := by
      cases t with
      | number x => exact fun c hc => ⟨hstop c hc, hl.head c hc⟩
      | _ => trivial
    have hlexed := (Lexed.lexeme ⟨s, t, hspells⟩ hend hl).spaces
      (fun c hc => List.mem_takeWhile_imp (p := isSpace) (l := cs) hc)
    rw [← hcs, ← hs, List.takeWhile_append_dropWhile] at hlexed
    exact ⟨_, hlexed, by simp⟩

/-- What the tokens of a text say. -/
theorem read_of_lexed (h : Lexed cs ls) :
    read? cs = Reader.run (.value []) (ls.map Lexeme.token) := by
  rw [read?, scan_of_lexed h]
  rfl

theorem lexed_of_read {v : Json} (h : read? cs = some v) : ∃ ls, Lexed cs ls := by
  unfold read? at h
  split at h
  · rename_i ts hs
    obtain ⟨ls, hl, -⟩ := lexed_of_scan hs
    exact ⟨ls, hl⟩
  · contradiction

theorem Token.EndsBefore.front {front : List Char} (hp : front <+: rest)
    (h : t.EndsBefore rest) : t.EndsBefore front := by
  cases t with
  | number x =>
    intro c hc
    obtain ⟨back, rfl⟩ := hp
    refine h c ?_
    rw [List.head?_append_of_ne_nil _ (by rintro rfl; contradiction)]
    exact hc
  | _ => trivial

theorem rdrop_append {p : Char → Bool} (hs : ∀ c ∈ s.getLast?, p c = false) (cs : List Char) :
    (s ++ cs).rdropWhile p = s ++ cs.rdropWhile p := by
  have hself : s.rdropWhile p = s := by
    rw [List.rdropWhile_eq_self_iff]
    intro hne
    simp [hs _ (List.getLast?_eq_some_getLast hne)]
  unfold List.rdropWhile at hself ⊢
  rw [List.reverse_append, List.dropWhile_append]
  split
  · rename_i he
    rw [hself, List.isEmpty_iff.mp he, List.reverse_nil, List.append_nil]
  · rw [List.reverse_append, List.reverse_reverse]

theorem rdrop_cons {p : Char → Bool} {c : Char} (hc : p c = true) (cs : List Char) :
    (c :: cs).rdropWhile p = [] ∧ cs.rdropWhile p = [] ∨
      (c :: cs).rdropWhile p = c :: cs.rdropWhile p := by
  unfold List.rdropWhile
  rw [List.reverse_cons, List.dropWhile_append]
  split
  · rename_i he
    rw [List.isEmpty_iff.mp he, List.dropWhile_cons_of_pos hc]
    exact .inl ⟨rfl, rfl⟩
  · rw [List.reverse_append]
    exact .inr rfl

theorem Lexed.left_trimmed (h : Lexed cs ls) : Lexed (cs.dropWhile Text.isBlank) ls := by
  induction h with
  | nil => exact .nil
  | space hc _ ih =>
    rw [List.dropWhile_cons_of_pos (space_blank hc).1]
    exact ih
  | @lexeme cs ls l he h _ =>
    obtain ⟨c, ds, hl⟩ := List.exists_cons_of_ne_nil l.spells.solid.nonempty
    have hc := (l.spells.solid.head c (hl ▸ rfl)).1
    have hkeep : (l.chars ++ cs).dropWhile Text.isBlank = l.chars ++ cs := by
      rw [hl, List.cons_append, List.dropWhile_cons_of_neg (by simp [hc])]
    rw [hkeep]
    exact .lexeme l he h

theorem Lexed.right_trimmed (h : Lexed cs ls) : Lexed (cs.rdropWhile Text.isBlank) ls := by
  induction h with
  | nil => exact .nil
  | @space c cs ls hc _ ih =>
    rcases rdrop_cons (space_blank hc).1 cs with ⟨h, he⟩ | h
    · rw [h]
      exact he ▸ ih
    · rw [h]
      exact .space hc ih
  | lexeme l he _ ih =>
    rw [rdrop_append l.spells.solid.last]
    exact .lexeme l (he.front (List.rdropWhile_prefix _ _)) ih

/-- A text keeps its tokens when the blanks at its ends are taken off. -/
theorem Lexed.trimmed (h : Lexed cs ls) : Lexed (Text.trimChars cs) ls :=
  h.left_trimmed.right_trimmed

/-- Text that is read as JSON is read the same way where blanks and commas are forgiven. -/
theorem parse_lenient_of_parse {text : String} {v : Json} (h : parse? text = some v) :
    parseLenient? text = some v := by
  obtain ⟨ls, hl⟩ := lexed_of_read h
  have hread : read? (Text.trimChars text.toList) = some v := by
    rw [read_of_lexed hl.trimmed, ← read_of_lexed hl]
    exact h
  unfold parseLenient?
  dsimp only
  rw [hread]

end SchemaHistory.Json
