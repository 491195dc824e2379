import Mathlib.Data.List.Basic
import SchemaHistory.Binary64.Shortest
import SchemaHistory.Json.Token
import SchemaHistory.Proofs.NumberGrammar
import SchemaHistory.Proofs.Rounding

namespace SchemaHistory.Binary64

theorem digits_number (n : Nat) : ∀ c ∈ Nat.toDigits 10 n, c.isDigit = true :=
  fun _ hc => Nat.isDigit_of_mem_toDigits (by decide) (by decide) hc

theorem digits_lead {n : Nat} (hn : 0 < n) : (Nat.toDigits 10 n).head? ≠ some '0' := by
  induction n using Nat.strong_induction_on with
  | h n ih =>
    by_cases h : n < 10
    · rw [Nat.toDigits_of_lt_base h]
      have hd : ∀ d < 10, 0 < d → Nat.digitChar d ≠ '0' := by decide
      simpa using hd n h hn
    · rw [Nat.toDigits_of_base_le (by decide) (by omega), List.head?_append_of_ne_nil _
        Nat.toDigits_ne_nil]
      exact ih (n / 10) (by omega) (by omega)

namespace Numeral

def powerChars : Option Int → List Char
  | none => []
  | some power => 'e' :: (if power < 0 then '-' else '+') :: Nat.toDigits 10 power.natAbs

/-- A text that writes a decimal the way data files ask for. -/
structure Spelled (n : Numeral) (power : Option Int) (cs : List Char) : Prop where
  text : cs = n.whole ++ (fractionChars n.fraction ++ powerChars power)
  exponent : n.exponent = power.getD 0
  whole : n.whole ≠ [] ∧ ∀ c ∈ n.whole, c.isDigit = true
  fraction : ∀ ds ∈ n.fraction, ∀ c ∈ ds, c.isDigit = true
  strict : n.isStrict = true

theorem power_chars (power : Option Int) : Power (powerChars power) (power.getD 0) := by
  cases power with
  | none => exact .none
  | some p =>
    have hne : Nat.toDigits 10 p.natAbs ≠ [] := Nat.toDigits_ne_nil
    have hd := digits_number p.natAbs
    by_cases hp : p < 0
    · have h := Power.some (.inl rfl) (by decide : ['-'] ∈ [[], ['+'], ['-']]) hne hd
      have ha : -(p.natAbs : Int) = p := by omega
      rw [if_pos rfl, Nat.ofDigitChars_ten_toDigits, ha] at h
      rw [powerChars, if_pos hp]
      exact h
    · have h := Power.some (.inl rfl) (by decide : ['+'] ∈ [[], ['+'], ['-']]) hne hd
      have ha : (p.natAbs : Int) = p := by omega
      rw [if_neg (by decide), Nat.ofDigitChars_ten_toDigits, ha] at h
      rw [powerChars, if_neg hp]
      exact h

theorem Spelled.written {n : Numeral} {power : Option Int} {cs : List Char}
    (h : Spelled n power cs) : Written n (powerChars power) :=
  ⟨h.whole, h.fraction, h.exponent ▸ power_chars power, h.strict⟩

/-- A decimal is read back from the text that spells it. -/
theorem unsigned_of_spelled {n : Numeral} {power : Option Int} {cs rest : List Char}
    (h : Spelled n power cs) (hr : NumberEnd rest) :
    unsigned? n.negative (cs ++ rest) = some (n, rest) := by
  have hread := unsigned_of_written h.written hr
  rwa [chars, ← h.text] at hread

theorem strict_of_lead {n : Numeral}
    (hw : n.whole = ['0'] ∨ n.whole ≠ [] ∧ n.whole.head? ≠ some '0')
    (hf : n.fraction ≠ some []) : n.isStrict = true := by
  obtain ⟨negative, whole, fraction, exponent⟩ := n
  dsimp only at hw hf
  rcases hw with rfl | ⟨hne, hl⟩
  · simpa [isStrict] using hf
  · cases whole with
    | nil => exact absurd rfl hne
    | cons c cs =>
      have hc : c ≠ '0' := by simpa using hl
      unfold isStrict
      split
      · contradiction
      · rename_i he
        simp only [List.cons.injEq] at he
        exact absurd he.1 hc
      · rename_i he
        simp only [List.cons.injEq] at he
        obtain ⟨rfl, rfl⟩ := he
        simpa [hc] using hf

end Numeral

open Numeral

/-- With either sign in front, a text reads as the decimal `m · 10^e`. -/
def Spells (cs : List Char) (m : Nat) (e : Int) : Prop :=
  ∀ negative, ∃ n power, n.negative = negative ∧ Spelled n power cs ∧
    n.value = ofDecimal negative m e

theorem digit_zero (k : Nat) : ∀ c ∈ List.replicate k '0', c.isDigit = true := by
  intro c hc
  rw [List.eq_of_mem_replicate hc]
  rfl

theorem spells_whole {whole : List Char} (hd : ∀ c ∈ whole, c.isDigit = true)
    (hl : whole = ['0'] ∨ whole ≠ [] ∧ whole.head? ≠ some '0') :
    Spells whole (Nat.ofDigitChars 10 whole 0) 0 := by
  intro negative
  have hne : whole ≠ [] := by
    rcases hl with rfl | ⟨hne, _⟩
    · simp
    · exact hne
  refine ⟨⟨negative, whole, none, 0⟩, none, rfl, ⟨?_, rfl, ⟨hne, hd⟩, ?_, ?_⟩, ?_⟩
  · simp [fractionChars, powerChars]
  · simp
  · exact strict_of_lead hl (by simp)
  · simp [value]

theorem spells_point (whole fraction : List Char) (power : Option Int)
    (hd : ∀ c ∈ whole ++ fraction, c.isDigit = true)
    (hl : whole = ['0'] ∨ whole ≠ [] ∧ whole.head? ≠ some '0') (hf : fraction ≠ []) :
    Spells (whole ++ '.' :: (fraction ++ powerChars power))
      (Nat.ofDigitChars 10 (whole ++ fraction) 0) (power.getD 0 - fraction.length) := by
  intro negative
  have hne : whole ≠ [] := by
    rcases hl with rfl | ⟨hne, _⟩
    · simp
    · exact hne
  refine ⟨⟨negative, whole, some fraction, power.getD 0⟩, power, rfl, ⟨rfl, rfl, ⟨hne, ?_⟩, ?_, ?_⟩,
    rfl⟩
  · exact fun c hc => hd c (List.mem_append_left _ hc)
  · rintro ds ⟨⟩ c hc
    exact hd c (List.mem_append_right _ hc)
  · exact strict_of_lead hl (by simpa using hf)

theorem spells_power {c : Char} {power : Int} (hc : c.isDigit = true) (h0 : c ≠ '0') :
    Spells (c :: powerChars (some power)) (Nat.ofDigitChars 10 [c] 0) power := by
  intro negative
  refine ⟨⟨negative, [c], none, power⟩, some power, rfl,
    ⟨rfl, rfl, ⟨by simp, by simpa⟩, ?_, ?_⟩, ?_⟩
  · simp
  · exact strict_of_lead (.inr ⟨by simp, by simpa⟩) (by simp)
  · simp [value]

section

variable {digits : List Char} {place : Int} (hne : digits ≠ [])
  (hd : ∀ c ∈ digits, c.isDigit = true) (hl : digits.head? ≠ some '0')

include hne hd hl

theorem spells_zeros_behind (h : digits.length ≤ place) :
    Spells (digits ++ List.replicate (place - digits.length).toNat '0')
      (Nat.ofDigitChars 10 digits 0) (place - digits.length) := by
  have hw : ∀ c ∈ digits ++ List.replicate (place - digits.length).toNat '0',
      c.isDigit = true := by
    simp only [List.forall_mem_append]
    exact ⟨hd, digit_zero _⟩
  have hs := spells_whole hw (.inr ⟨by simp [hne], by rwa [List.head?_append_of_ne_nil _ hne]⟩)
  intro negative
  obtain ⟨n, power, hn, ht, hv⟩ := hs negative
  have hz : (0 : Int) + (place - digits.length).toNat = place - digits.length := by omega
  refine ⟨n, power, hn, ht, ?_⟩
  rw [hv, Nat.ofDigitChars_append, Nat.ofDigitChars_replicate_zero, Nat.mul_comm, ← pow_eq,
    of_decimal_shift, hz]

theorem spells_point_inside (h0 : 0 < place) (h : place < digits.length) :
    Spells (digits.take place.toNat ++ '.' :: digits.drop place.toNat)
      (Nat.ofDigitChars 10 digits 0) (place - digits.length) := by
  have hlead : (digits.take place.toNat).head? ≠ some '0' := by
    rwa [List.head?_take, if_neg (by omega)]
  have hs := spells_point (digits.take place.toNat) (digits.drop place.toNat) none
    (by simpa using hd) (.inr ⟨by simp [hne]; omega, hlead⟩) (by simp; omega)
  have he : (none : Option Int).getD 0 - (digits.drop place.toNat).length
      = place - digits.length := by
    rw [List.length_drop, Option.getD_none]
    omega
  rwa [List.take_append_drop, he, powerChars, List.append_nil] at hs

omit hl in
theorem spells_zeros_before (h : place ≤ 0) :
    Spells ('0' :: '.' :: (List.replicate (-place).toNat '0' ++ digits))
      (Nat.ofDigitChars 10 digits 0) (place - digits.length) := by
  have hw : ∀ c ∈ ['0'] ++ (List.replicate (-place).toNat '0' ++ digits), c.isDigit = true := by
    simp only [List.forall_mem_append]
    exact ⟨digit_zero 1, digit_zero _, hd⟩
  have hs := spells_point _ _ none hw (.inl rfl) (by simp [hne])
  have he : (none : Option Int).getD 0 - (List.replicate (-place).toNat '0' ++ digits).length
      = place - digits.length := by
    rw [List.length_append, List.length_replicate, Option.getD_none]
    omega
  have hz : Nat.ofDigitChars 10 ['0'] 0 = 0 := rfl
  rw [he, powerChars, List.append_nil, Nat.ofDigitChars_append, Nat.ofDigitChars_append,
    Nat.ofDigitChars_replicate_zero, hz, Nat.mul_zero] at hs
  exact hs

/-- The text that a number is laid out in reads as its digits with the point in its place. -/
theorem spells_lay_out :
    Spells (layOut digits place) (Nat.ofDigitChars 10 digits 0) (place - digits.length) := by
  unfold layOut
  dsimp only
  split
  · rename_i h
    exact spells_zeros_behind hne hd hl h.1
  · split
    · rename_i h1 h2
      exact spells_point_inside hne hd hl h2.1 (by omega)
    · split
      · rename_i h1 h2 h3
        exact spells_zeros_before hne hd h3.2
      · cases digits with
        | nil => exact absurd rfl hne
        | cons c cs =>
          have hc : c.isDigit = true := hd c List.mem_cons_self
          have h0 : c ≠ '0' := by simpa using hl
          cases cs with
          | nil => exact spells_power hc h0
          | cons d ds =>
            have hs := spells_point [c] (d :: ds) (some (place - 1)) hd (.inr ⟨by simp, by simpa⟩)
              (by simp)
            have he : (some (place - 1)).getD 0 - (d :: ds).length
                = place - (c :: d :: ds).length := by
              simp only [Option.getD_some, List.length_cons]
              omega
            rw [he] at hs
            exact hs

end

end SchemaHistory.Binary64
