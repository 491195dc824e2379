import SchemaHistory.Proofs.Numerals

namespace SchemaHistory.Binary64

open Json Numeral

namespace Decimal

theorem reads_of_neighbour {x : Binary64} {e : Int} {steps : Nat × Nat} {d : Decimal}
    (h : neighbour? x e steps = some d) : ofDecimal false d.digits d.exponent = x := by
  obtain ⟨num, den⟩ := steps
  unfold neighbour? at h
  dsimp only at h
  split at h
  · rename_i hb
    split at h
    · rename_i ha
      simp only [Bool.and_eq_true, decide_eq_true_eq] at ha
      rw [← Option.some.inj h]
      exact ha.1
    · rw [← Option.some.inj h]
      exact hb
  · split at h
    · rename_i ha
      rw [← Option.some.inj h]
      exact ha
    · contradiction

theorem reads_exact {n : Nat} (hn : Fits n) :
    ofDecimal false (exact n).digits (exact n).exponent = finite n (by simpa using hn) := by
  have h0 : (-1074 : Int).toNat = 0 := by decide
  have h1 : (-(-1074 : Int)).toNat = 1074 := by decide
  have h10 : Nat.pow 10 1074 = Nat.pow 5 1074 * one := by
    rw [one_eq, pow_eq, pow_eq, ← Nat.mul_pow]
  change ofDecimal false (n * Nat.pow 5 1074) (-1074) = _
  rw [of_decimal_round, h0, h1, pow_eq 10 0, Nat.pow_zero, Nat.mul_one, h10]
  refine round_of_nearest hn (nearest_of_cross ?_ hn (Nat.mul_assoc ..))
  exact Nat.mul_pos (Nat.pow_pos (by decide)) (Nat.two_pow_pos _)

/-- The fewest digits of a number read as that number. -/
theorem reads_shortest {n : Nat} (hn : Fits n) {x : Binary64}
    (hx : x = finite n (by simpa using hn)) :
    ofDecimal false (shortest x n).digits (shortest x n).exponent = x := by
  unfold shortest
  cases h : (List.range' 1 17).findSome? (onGrid? x n) with
  | none => rw [Option.getD_none, reads_exact hn, hx]
  | some d =>
    obtain ⟨count, _, hd⟩ := List.exists_of_findSome?_eq_some h
    unfold onGrid? at hd
    exact reads_of_neighbour hd

theorem zero_decimal (e : Int) : ofDecimal false 0 e = 0 :=
  rfl

theorem shortest_positive {n : Nat} (hn : Fits n) {x : Binary64}
    (hx : x = finite n (by simpa using hn)) (h0 : 0 < n) : 0 < (shortest x n).digits := by
  refine Nat.pos_of_ne_zero fun hd => ?_
  have hr := reads_shortest hn hx
  have hz : ofDecimal false 0 0 = finite 0 (by simpa using fits_zero) := by
    rw [of_decimal_nat, ofNat, Nat.zero_mul]
    exact round_of_nearest fits_zero (nearest_exact fits_zero)
  rw [hd, zero_decimal, ← zero_decimal 0, hz, hx] at hr
  simp only [finite.injEq] at hr
  omega

end Decimal

theorem spells_nat (n : Nat) : Spells (Nat.toDigits 10 n) n 0 := by
  have h := spells_whole (digits_number n) (by
    rcases Nat.eq_zero_or_pos n with rfl | hn
    · exact .inl rfl
    · exact .inr ⟨Nat.toDigits_ne_nil, digits_lead hn⟩)
  rwa [Nat.ofDigitChars_ten_toDigits] at h

/-- A decimal is laid out without the zeros at its end. -/
theorem spells_stripped {m : Nat} (hm : 0 < m) (e : Int) :
    Spells (layOut ((Nat.toDigits 10 m).reverse.dropWhile (· == '0')).reverse
      ((Nat.toDigits 10 m).length + e)) m e := by
  obtain ⟨k, hk⟩ := strip_end '0' (Nat.toDigits 10 m)
  generalize hs : ((Nat.toDigits 10 m).reverse.dropWhile (· == '0')).reverse = digits at hk ⊢
  have hv : m = Nat.ofDigitChars 10 digits 0 * Nat.pow 10 k := by
    rw [← @Nat.ofDigitChars_ten_toDigits m, hk, Nat.ofDigitChars_append,
      Nat.ofDigitChars_replicate_zero, Nat.mul_comm, pow_eq]
  have hne : digits ≠ [] := by
    intro heq
    subst heq
    rw [Nat.ofDigitChars_nil, Nat.zero_mul] at hv
    omega
  have hd : ∀ c ∈ digits, c.isDigit = true := fun c hc =>
    digits_number m c (hk ▸ List.mem_append_left _ hc)
  have hl : digits.head? ≠ some '0' := by
    have := digits_lead hm
    rwa [hk, List.head?_append_of_ne_nil _ hne] at this
  have hlen : (Nat.toDigits 10 m).length = digits.length + k := by
    rw [hk, List.length_append, List.length_replicate]
  intro negative
  obtain ⟨n, power, hn, ht, hw⟩ :=
    @spells_lay_out digits ((Nat.toDigits 10 m).length + e) hne hd hl negative
  have he : ((Nat.toDigits 10 m).length : Int) + e - digits.length = e + k := by omega
  refine ⟨n, power, hn, ht, ?_⟩
  rw [hw, he, ← of_decimal_shift, ← hv]

/-- The text of a magnitude reads as that magnitude. -/
theorem spells_magnitude {n : Nat} (hn : Fits n) {x : Binary64}
    (hx : x = finite n (by simpa using hn)) :
    ∃ m e, Spells (magnitudeText x n) m e ∧ ofDecimal false m e = x := by
  unfold magnitudeText
  split
  · rename_i h
    refine ⟨n / one, 0, spells_nat _, ?_⟩
    have hm : n / one * one = n := Nat.div_mul_cancel (Nat.dvd_of_mod_eq_zero h.1)
    rw [of_decimal_nat, ofNat, hm, hx]
    exact round_of_nearest hn (nearest_exact hn)
  · rename_i h
    have h0 : 0 < n := by
      refine Nat.pos_of_ne_zero fun hn0 => h ?_
      rw [hn0, Nat.zero_mod, Nat.zero_div]
      exact ⟨rfl, Nat.zero_le _⟩
    exact ⟨_, _, spells_stripped (Decimal.shortest_positive hn hx h0) _,
      Decimal.reads_shortest hn hx⟩

theorem digit_token {c : Char} {cs : List Char} (hc : c.isDigit = true) :
    Token.read? (c :: cs) = Token.readNumber false (c :: cs) := by
  unfold Token.read?
  split <;> first | rfl | (rename_i h; cases h; exact absurd hc (by decide))

theorem number_token {negative : Bool} {body rest : List Char} {m : Nat} {e : Int}
    (h : Spells body m e) (hr : NumberEnd rest) :
    Token.readNumber negative (body ++ rest) = some (.number (ofDecimal negative m e), rest) := by
  obtain ⟨n, power, hn, ht, hv⟩ := h negative
  unfold Token.readNumber
  rw [← hn, unsigned_of_spelled ht hr]
  simp only [ht.strict, ↓reduceIte, hv, hn]

/-- The text of a finite number reads as that number. -/
theorem token_of_text {u : Int} (fits : Fits u.natAbs) {rest : List Char} (hr : NumberEnd rest) :
    Token.read? ((finite u fits).text.toList ++ rest) = some (.number (finite u fits), rest) := by
  obtain ⟨m, e, hs, hv⟩ := @spells_magnitude u.natAbs fits (finite u.natAbs fits) rfl
  simp only [text, String.toList_ofList]
  split
  · rename_i hu
    have hn : (-(u.natAbs : Int)) = u := by omega
    rw [List.cons_append, Token.read?, number_token hs hr, of_decimal_negative hv]
    simp only [hn]
  · rename_i hu
    have hn : (u.natAbs : Int) = u := by omega
    obtain ⟨n, power, _, ht, _⟩ := hs false
    obtain ⟨c, cs, hc⟩ := List.exists_cons_of_ne_nil ht.whole.1
    have hb : magnitudeText (finite u.natAbs fits) u.natAbs
        = c :: (cs ++ (fractionChars n.fraction ++ powerChars power)) := by
      rw [ht.text, hc, List.cons_append]
    have hd : c.isDigit = true := ht.whole.2 c (by rw [hc]; exact List.mem_cons_self)
    rw [hb, List.cons_append, digit_token hd, ← List.cons_append, ← hb, number_token hs hr, hv]
    simp only [hn]

theorem number_end_nil : NumberEnd [] := by
  simp [NumberEnd]

theorem token_of_finite {u : Int} (fits : Fits u.natAbs) :
    Token.read? (finite u fits).text.toList = some (.number (finite u fits), []) := by
  simpa using token_of_text fits number_end_nil

theorem no_token_nan : Token.read? nan.text.toList = none := by
  decide

theorem no_token_infinite (negative : Bool) :
    Token.read? (infinite negative).text.toList = none := by
  cases negative <;> decide

/-- Different numbers have different texts. -/
theorem text_injective : Function.Injective text := by
  intro x y h
  have hr : Token.read? x.text.toList = Token.read? y.text.toList := by rw [h]
  cases x with
  | finite u hu =>
    rw [token_of_finite hu] at hr
    cases y with
    | finite v hv =>
      rw [token_of_finite hv] at hr
      simpa using hr
    | nan => simp [no_token_nan] at hr
    | infinite t => simp [no_token_infinite] at hr
  | nan =>
    cases y with
    | finite v hv => simp [no_token_nan, token_of_finite hv] at hr
    | nan => rfl
    | infinite t => cases t <;> exact absurd h (by decide)
  | infinite s =>
    cases y with
    | finite v hv => simp [no_token_infinite, token_of_finite hv] at hr
    | nan => cases s <;> exact absurd h (by decide)
    | infinite t => cases s <;> cases t <;> first | rfl | exact absurd h (by decide)

end SchemaHistory.Binary64
