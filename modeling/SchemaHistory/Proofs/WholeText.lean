import SchemaHistory.Proofs.NumberOrder

namespace SchemaHistory.Binary64

theorem digits_shifted {m : Nat} (hm : 0 < m) (k : Nat) :
    Nat.toDigits 10 (m * 10 ^ k) = Nat.toDigits 10 m ++ List.replicate k '0' := by
  induction k with
  | zero => simp
  | succ k ih =>
    have hp : 0 < m * 10 ^ k := Nat.mul_pos hm (Nat.pow_pos (by decide))
    have hz := Nat.toDigits_append_toDigits (b := 10) (n := m * 10 ^ k) (d := 0) (by decide) hp
      (by decide)
    have hs : m * 10 ^ (k + 1) = 10 * (m * 10 ^ k) + 0 := by ring
    rw [hs, ← hz, ih, List.replicate_succ', List.append_assoc]
    rfl

/-- Zeros at the end of a number do not stay in its digits. -/
theorem stripped_shifted {m : Nat} (hm : 0 < m) (k : Nat) :
    ((Nat.toDigits 10 (m * 10 ^ k)).reverse.dropWhile (· == '0')).reverse.length
      ≤ (Nat.toDigits 10 m).length := by
  rw [digits_shifted hm, List.reverse_append, List.reverse_replicate,
    List.dropWhile_append_of_pos (by simp), List.length_reverse]
  exact Nat.le_trans (List.dropWhile_sublist _).length_le (Nat.le_of_eq List.length_reverse)

/-- Digits with the point behind them, and not too far, are laid out as digits alone. -/
theorem lay_out_digits {digits : List Char} {point : Int} (hd : ∀ c ∈ digits, c.isDigit = true)
    (hl : digits.length ≤ point) (h : point ≤ 21) :
    ∀ c ∈ layOut digits point, c.isDigit = true := by
  unfold layOut
  dsimp only
  rw [if_pos ⟨hl, h⟩]
  simp only [List.forall_mem_append]
  exact ⟨hd, digit_zero _⟩

/-- Whole numbers below this one are written in digits alone. -/
def positional : Nat := Nat.pow 10 21

theorem fits_positional : Fits (positional * one) := by
  have hten : positional = Nat.pow 5 21 * Nat.pow 2 21 := by decide
  refine And.intro (by decide +kernel) ⟨Nat.pow 5 21, 21 + 1074, by decide, ?_⟩
  rw [hten, one_eq, pow_eq 2, pow_eq 2, pow_add, Nat.mul_assoc]

theorem of_nat_positional : ∃ h, ofNat positional = finite ((positional * one : Nat) : Int) h :=
  ⟨_, round_of_nearest fits_positional (nearest_exact fits_positional)⟩

/-- Rounding does not bring a number below that bound. -/
theorem lt_positional {m : Nat} (h : ofNat m < ofNat positional) : m < positional := by
  obtain ⟨hf, hl⟩ := of_nat_positional
  by_contra hle
  rw [hl] at h
  have hn := le_nearest_of_fits fits_positional (Nat.mul_le_mul_right one (Nat.not_lt.mp hle))
  by_cases hr : nearest (m * one) 1 < Nat.pow 2 2098
  · obtain ⟨hm, he⟩ := round_natural hr
    rw [ofNat, he, finite_lt] at h
    omega
  · rw [ofNat, round, dif_neg hr] at h
    contradiction

namespace Decimal

/-- A decimal that stands for a whole number: the point does not come before the zeros at the end
of its digits. -/
def Whole (d : Decimal) : Prop :=
  ∃ m k j : Nat, d.digits = m * 10 ^ k ∧ d.exponent = j - k

theorem whole_shifted (m k : Nat) : Whole ⟨m * 10 ^ k, -k⟩ :=
  ⟨m, k, 0, rfl, by simp⟩

theorem Whole.digits_only {d : Decimal} (h : d.Whole) (hp : 0 < d.digits)
    (hl : ofDecimal false d.digits d.exponent < ofNat positional) :
    ∀ c ∈ layOut ((Nat.toDigits 10 d.digits).reverse.dropWhile (· == '0')).reverse
      ((Nat.toDigits 10 d.digits).length + d.exponent), c.isDigit = true := by
  obtain ⟨m, k, j, hd, he⟩ := h
  have hm : 0 < m := Nat.pos_of_mul_pos_right (hd ▸ hp)
  have hsum : (j : Int) - k + k = 0 + j := by omega
  have hv : ofDecimal false d.digits d.exponent = ofNat (m * 10 ^ j) := by
    rw [hd, he, ← pow_eq, of_decimal_shift, hsum, ← of_decimal_shift, of_decimal_nat]
    rfl
  rw [hv] at hl
  have hlen := (Nat.length_toDigits_le_iff (b := 10) (k := 21) (by decide) (by decide)).mpr
    (lt_positional hl)
  rw [digits_shifted hm, List.length_append, List.length_replicate] at hlen
  have hstripped := stripped_shifted hm k
  have hall : (Nat.toDigits 10 d.digits).length = (Nat.toDigits 10 m).length + k := by
    rw [hd, digits_shifted hm, List.length_append, List.length_replicate]
  refine lay_out_digits (fun c hc => ?_) ?_ ?_
  · refine digits_number d.digits c ?_
    exact List.mem_reverse.mp ((List.dropWhile_sublist _).mem (List.mem_reverse.mp hc))
  · rw [hall, he, hd]
    omega
  · rw [hall, he]
    omega

theorem order_whole {m : Nat} (hm : 0 < m) : order (m * one) = (Nat.toDigits 10 m).length := by
  have hq : m * one * lift / one = m * 10 ^ 400 := by
    rw [Nat.mul_right_comm, Nat.mul_div_cancel _ one_pos, lift, pow_eq]
  rw [order, hq, digits_shifted hm, List.length_append, List.length_replicate]
  omega

theorem two_five_pow (k : Nat) : 2 ^ k * 5 ^ k = 10 ^ k := by
  rw [← Nat.mul_pow]

theorem exact_whole (m : Nat) : (exact (m * one)).Whole := by
  have hd : m * one * Nat.pow 5 1074 = m * 10 ^ 1074 := by
    rw [one_eq, pow_eq, Nat.mul_assoc, two_five_pow]
  rw [exact, hd]
  exact whole_shifted m 1074

theorem in_steps_natural (n k : Nat) : inSteps n k = (n, one * Nat.pow 10 k) :=
  rfl

/-- With all digits before the point, a whole number is found. -/
theorem on_grid_whole {m : Nat} (hm : 0 < m) :
    onGrid? (ofNat m) (m * one) (Nat.toDigits 10 m).length ≠ none := by
  have hb : m * one / (one * Nat.pow 10 0) = m := by
    rw [pow_eq, Nat.pow_zero, Nat.mul_one, Nat.mul_div_cancel _ one_pos]
  rw [onGrid?, order_whole hm, Int.sub_self, ← Int.natCast_zero, in_steps_natural]
  unfold neighbour?
  dsimp only
  rw [hb, Int.natCast_zero, if_pos (of_decimal_nat m)]
  split <;> simp

theorem exponent_of_neighbour {x : Binary64} {e : Int} {steps : Nat × Nat} {d : Decimal}
    (h : neighbour? x e steps = some d) : d.exponent = e := by
  obtain ⟨num, den⟩ := steps
  unfold neighbour? at h
  dsimp only at h
  split at h
  · split at h <;> exact Option.some.inj h ▸ rfl
  · split at h
    · exact Option.some.inj h ▸ rfl
    · contradiction

/-- The counts of digits are tried in ascending order. -/
theorem earlier_count {before after : List Nat} {count n : Nat}
    (h : List.range' 1 17 = before ++ count :: after) (hn : 0 < n) (hlt : n < count) :
    n ∈ before := by
  have hs : (before ++ count :: after).Pairwise (· < ·) := h ▸ List.pairwise_lt_range'
  obtain ⟨_, hafter, _⟩ := List.pairwise_append.mp hs
  have hcount : count ∈ List.range' 1 17 := h ▸ List.mem_append_right _ List.mem_cons_self
  have hin : n ∈ before ++ count :: after := by
    rw [← h]
    simp only [List.mem_range'_1] at hcount ⊢
    omega
  rcases List.mem_append.mp hin with hin | hin
  · exact hin
  · rcases List.mem_cons.mp hin with rfl | hin
    · omega
    · have := (List.pairwise_cons.mp hafter).1 n hin
      omega

/-- What is found first does not have more digits than the number. -/
theorem count_whole {m n count : Nat} {x : Binary64} (hm : 0 < m) (hn : n = m * one)
    (hx : x = ofNat m) {before after : List Nat}
    (hl : List.range' 1 17 = before ++ count :: after)
    (hnone : ∀ k ∈ before, onGrid? x n k = none) : count ≤ (Nat.toDigits 10 m).length := by
  by_contra hlt
  have hpos : 0 < (Nat.toDigits 10 m).length := List.length_pos_iff.mpr Nat.toDigits_ne_nil
  have hno := hnone _ (earlier_count hl hpos (Nat.not_le.mp hlt))
  rw [hn, hx] at hno
  exact on_grid_whole hm hno

theorem on_grid_found {m n count : Nat} {x : Binary64} (hm : 0 < m) (hn : n = m * one)
    {d : Decimal} (h : onGrid? x n count = some d) (hle : count ≤ (Nat.toDigits 10 m).length) :
    d.Whole := by
  unfold onGrid? at h
  refine ⟨d.digits, 0, (Nat.toDigits 10 m).length - count, by simp, ?_⟩
  rw [exponent_of_neighbour h, hn, order_whole hm, Nat.cast_sub hle, Nat.cast_zero, Int.sub_zero]

/-- The fewest digits of a whole number do not go behind the point. -/
theorem shortest_whole {m n : Nat} {x : Binary64} (hm : 0 < m) (hn : n = m * one)
    (hx : x = ofNat m) : (shortest x n).Whole := by
  unfold shortest
  cases h : (List.range' 1 17).findSome? (onGrid? x n) with
  | none =>
    -- All digits are taken then, and those behind the point are zeros.
    exact hn ▸ exact_whole m
  | some d =>
    obtain ⟨before, count, after, hl, hd, hnone⟩ := List.findSome?_eq_some_iff.mp h
    exact on_grid_found hm hn hd (count_whole hm hn hx hl hnone)

end Decimal

theorem Spells.nonempty {cs : List Char} {m : Nat} {e : Int} (h : Spells cs m e) : cs ≠ [] := by
  obtain ⟨n, power, _, ht, _⟩ := h false
  rw [ht.text]
  exact List.append_ne_nil_of_left_ne_nil ht.whole.1 _

/-- A positive whole number counts units in ones. -/
theorem natural_of_whole {x : Binary64} (hi : x.isInteger = true) (hp : 0 < x) : ∃ m n : Nat,
    0 < m ∧ n = m * one ∧ x = ofNat m ∧ ∃ hf, x = finite n hf := by
  cases x with
  | nan => contradiction
  | infinite s => contradiction
  | finite u hu =>
    rw [units_positive] at hp
    obtain ⟨n, rfl⟩ := Int.eq_ofNat_of_zero_le (Int.le_of_lt hp)
    obtain ⟨m, hm⟩ := Int.natCast_dvd_natCast.mp ((units_integer hu).mp hi)
    have hn : n = m * one := by rw [hm, Nat.mul_comm]
    have hf : Fits n := by simpa using hu
    refine ⟨m, n, ?_, hn, ?_, hu, rfl⟩
    · refine Nat.pos_of_ne_zero fun h0 => ?_
      rw [h0, Nat.zero_mul] at hn
      omega
    · rw [ofNat, ← hn]
      exact (round_of_nearest hf (nearest_exact hf)).symm

/-- A positive whole number below that bound is written in digits alone. -/
theorem text_whole {x : Binary64} (hi : x.isInteger = true) (hp : 0 < x)
    (hl : x < ofNat positional) :
    x.text.toList ≠ [] ∧ ∀ c ∈ x.text.toList, c.isDigit = true := by
  obtain ⟨m, n, hm, hn, hx, hu, rfl⟩ := natural_of_whole hi hp
  have hf : Fits n := by simpa using hu
  have htext : (finite n hu).text.toList = magnitudeText (finite n hu) n := by
    simp only [text, if_neg (Int.not_lt.mpr (Int.natCast_nonneg n)), String.toList_ofList,
      Int.natAbs_natCast]
  obtain ⟨_, _, hs, _⟩ := spells_magnitude hf rfl
  rw [htext]
  refine ⟨hs.nonempty, ?_⟩
  unfold magnitudeText
  split
  · exact digits_number _
  · refine (Decimal.shortest_whole hm hn hx).digits_only ?_ ?_
    · exact Decimal.shortest_positive hf rfl (Int.natCast_pos.mp ((units_positive hu).mp hp))
    · rw [Decimal.reads_shortest hf rfl]
      exact hl

/-- Where counting on goes forward at all, the next number is below that bound. -/
theorem next_positional {x : Binary64} (hi : x.isInteger = true) (hp : 0 < x) (h : x < x + 1) :
    x + 1 < ofNat positional := by
  obtain ⟨m, n, hm, hn, -, hu, rfl⟩ := natural_of_whole hi hp
  have hf : Fits n := by simpa using hu
  obtain ⟨hr, he⟩ := round_natural (nearest_next_lt hf)
  rw [add_one, he, finite_lt, Int.ofNat_lt] at h
  -- From 2^54 on adding one changes nothing, so the number is far below the bound.
  have hlt : n < Nat.pow 2 1128 := by
    by_contra hle
    rw [nearest_beyond hf (Nat.not_lt.mp hle)] at h
    omega
  obtain ⟨hb, hl⟩ := of_nat_positional
  rw [add_one, he, hl, finite_lt, Int.ofNat_lt]
  have hd := nearest_le_double (Nat.add_pos_right n one_pos)
  have hbound : 2 * (Nat.pow 2 1128 + one) < positional * one := by decide +kernel
  omega

/-- Below 2^53 counting on goes forward. -/
theorem next_above {x : Binary64} (hi : x.isInteger = true) (hp : 0 < x) (h : x < ofNat safe) :
    x < x + 1 := by
  obtain ⟨m, n, hm, hn, hx, hu, hxn⟩ := natural_of_whole hi hp
  have hms : m < safe := by
    rw [hxn, of_nat_whole (Nat.le_refl safe), finite_lt, hn, Int.ofNat_lt] at h
    exact Nat.lt_of_mul_lt_mul_right h
  rw [hx, of_nat_succ hms]
  exact (of_nat_lt (Nat.le_of_lt hms) hms).mpr (Nat.lt_succ_self m)

theorem safe_lt_positional {x : Binary64} (h : x < ofNat safe) : x < ofNat positional := by
  obtain ⟨hb, hl⟩ := of_nat_positional
  have hs : ofNat safe < ofNat positional := by
    rw [of_nat_whole (Nat.le_refl safe), hl, finite_lt, Int.ofNat_lt]
    exact Nat.mul_lt_mul_of_pos_right (by decide) one_pos
  exact lt_of_le_lt (le_of_lt h) hs

end SchemaHistory.Binary64

namespace SchemaHistory.Store

open Binary64

/-- The version of a file below that bound is told by its name. -/
theorem version_of_whole {x : Binary64} (hi : x.isInteger = true) (hp : 0 < x)
    (hl : x < ofNat positional) : versionOf? (versionFile x) = some x := by
  have hn : (versionFile x).toList = 'v' :: (x.text.toList ++ ".json".toList) := by
    simp [versionFile]
  obtain ⟨hne, hd⟩ := text_whole hi hp hl
  have h := version_of_spelled hne hd hn
  rwa [version_written h] at h

end SchemaHistory.Store
