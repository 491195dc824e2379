import Mathlib.Data.List.Lex
import SchemaHistory.Json.Printer
import SchemaHistory.Json.Token

namespace SchemaHistory

namespace Text

theorem units_small {c : Char} (h : c.toNat < 0x10000) : unitsOf c = [c.toNat] :=
  if_pos h

/-- A character takes no place among the halves of surrogate pairs. -/
theorem not_surrogate (c : Char) : c.toNat < 0xD800 ∨ 0xDFFF < c.toNat ∧ c.toNat < 0x110000 := by
  rcases c.valid with h | h
  · exact .inl h
  · exact .inr h

theorem of_units_char (seen : List Char) (c : Char) (us : List Nat) :
    ofUnitsFrom none seen (unitsOf c ++ us) = ofUnitsFrom none (c :: seen) us := by
  by_cases hs : c.toNat < 0x10000
  · have hc : c.toNat < 0xD800 ∨ 0xDFFF < c.toNat := by
      rcases not_surrogate c with h | h
      · exact .inl h
      · exact .inr h.1
    rw [units_small hs, List.singleton_append, ofUnitsFrom]
    simp [hc, Char.ofNat_toNat]
  · obtain ⟨k, hk⟩ : ∃ k, c.toNat = 0x10000 + k := Nat.exists_eq_add_of_le (by omega)
    have hlt : k < 0x100000 := by
      rcases not_surrogate c with h | h <;> omega
    have hu : unitsOf c = [0xD800 + k / 0x400, 0xDC00 + k % 0x400] := by
      simp [unitsOf, hk]
    have h1 : ¬(0xD800 + k / 0x400 < 0xD800 ∨ 0xDFFF < 0xD800 + k / 0x400) := by omega
    have h2 : 0xD800 + k / 0x400 < 0xDC00 := by omega
    have h3 : ¬(0xDC00 + k % 0x400 < 0xD800 ∨ 0xDFFF < 0xDC00 + k % 0x400) := by omega
    have h4 : ¬0xDC00 + k % 0x400 < 0xDC00 := by omega
    have hv : 0x10000 + (0xD800 + k / 0x400 - 0xD800) * 0x400 + (0xDC00 + k % 0x400 - 0xDC00)
        = c.toNat := by omega
    rw [hu, List.cons_append, List.singleton_append, ofUnitsFrom, ofUnitsFrom]
    simp only [h1, h2, h3, h4, ↓reduceIte, hv, Char.ofNat_toNat, Option.isSome_none,
      Bool.false_eq_true]

theorem of_units_chars (seen cs : List Char) :
    ofUnitsFrom none seen (cs.flatMap unitsOf) = seen.reverse ++ cs := by
  induction cs generalizing seen with
  | nil => simp [ofUnitsFrom]
  | cons c cs ih => rw [List.flatMap_cons, of_units_char, ih, List.reverse_cons, List.append_assoc,
      List.singleton_append]

/-- The units of a text encode that text. -/
theorem of_units_units (cs : List Char) : ofUnits (cs.flatMap unitsOf) = cs :=
  of_units_chars [] cs

theorem units_injective : Function.Injective units := by
  intro a b h
  have ha := of_units_units a.toList
  have hu : a.toList.flatMap unitsOf = b.toList.flatMap unitsOf := h
  rw [hu, of_units_units] at ha
  exact String.toList_injective ha.symm

theorem units_le (a b : String) :
    unitsLe a b = true ↔ units a ≤ units b := by
  rw [unitsLe, Bool.not_eq_true', ← Bool.not_eq_true, List.lex_eq_true_iff_lt]
  exact not_lt

/-- Sorted texts ascend by their units. -/
theorem sorted_units {xs : List String} (h : xs.Nodup) :
    (sortByUnits xs).Pairwise fun a b => units a < units b := by
  have htrans : ∀ a b c, unitsLe a b = true → unitsLe b c = true → unitsLe a c = true := by
    intro a b c hab hbc
    rw [units_le] at hab hbc ⊢
    exact le_trans hab hbc
  have htotal : ∀ a b, (unitsLe a b || unitsLe b a) = true := by
    intro a b
    rw [Bool.or_eq_true, units_le, units_le]
    exact le_total (units a) (units b)
  have hs := List.pairwise_mergeSort htrans htotal xs
  have hn := (List.mergeSort_perm xs unitsLe).nodup_iff.mpr h
  refine (hs.and hn).imp fun {a b} hab => ?_
  exact lt_of_le_of_ne ((units_le a b).mp hab.1) fun he => hab.2 (units_injective he)

end Text

namespace Json

open Text

theorem hex_digits : ∀ n < 0x20,
    Binary64.ofDigits? 16 ['0', '0', hexDigit (n / 16), hexDigit (n % 16)] = some n := by
  decide

theorem scan_plain {seen : List Nat} {c : Char} {rest : List Char} (hq : c ≠ '"') (hb : c ≠ '\\')
    (hc : ¬c.toNat < 0x20) :
    Token.scanString seen (c :: rest)
      = Token.scanString ((unitsOf c).reverse ++ seen) rest := by
  rw [Token.scanString, if_neg hc]
  · exact hq
  · exact fun _ _ _ _ _ h _ => hb h
  · exact fun _ _ h _ => hb h

/-- An escaped character is read back as its units. -/
theorem scan_escape (seen : List Nat) (c : Char) (rest : List Char) :
    Token.scanString seen (escape c ++ rest)
      = Token.scanString ((unitsOf c).reverse ++ seen) rest := by
  unfold escape
  split
  · simp [Token.scanString, Token.unescape, unitsOf]
  · simp [Token.scanString, Token.unescape, unitsOf]
  · simp [Token.scanString, Token.unescape, unitsOf]
  · simp [Token.scanString, Token.unescape, unitsOf]
  · simp [Token.scanString, Token.unescape, unitsOf]
  · simp [Token.scanString, Token.unescape, unitsOf]
  · simp [Token.scanString, Token.unescape, unitsOf]
  · rename_i hq hb _ _ _ _ _
    split
    · rename_i hc
      simp only [List.cons_append, List.nil_append, Token.scanString, hex_digits _ hc]
      rw [units_small (by omega), List.reverse_singleton, List.singleton_append]
    · rename_i hc
      exact scan_plain hq hb hc

theorem scan_chars (seen : List Nat) (cs rest : List Char) :
    Token.scanString seen (cs.flatMap escape ++ '"' :: rest)
      = some (seen.reverse ++ cs.flatMap unitsOf, rest) := by
  induction cs generalizing seen with
  | nil => simp [Token.scanString]
  | cons c cs ih =>
    rw [List.flatMap_cons, List.append_assoc, scan_escape, ih, List.flatMap_cons]
    simp

/-- A quoted text is read back as that text. -/
theorem token_of_quote (text : String) (rest : List Char) :
    Token.read? ((quote text).toList ++ rest) = some (.string text, rest) := by
  have hq : (quote text).toList ++ rest = '"' :: (text.toList.flatMap escape ++ '"' :: rest) := by
    simp [quote, quoteChars]
  rw [hq, Token.read?, scan_chars]
  simp [of_units_units]

end Json

end SchemaHistory
