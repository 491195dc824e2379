import Mathlib.Tactic.Ring
import SchemaHistory.Binary64.Decimal

namespace SchemaHistory.Binary64

theorem round_quotient_mul {k : Nat} (hk : 0 < k) (num den : Nat) :
    roundQuotient (k * num) (k * den) = roundQuotient num den := by
  have hq : k * num / (k * den) = num / den := Nat.mul_div_mul_left num den hk
  have hr : 2 * (k * num % (k * den)) = k * (2 * (num % den)) := by
    rw [Nat.mul_mod_mul_left]
    ring
  simp only [roundQuotient, hq, hr, Nat.mul_lt_mul_left hk]

theorem nearest_mul {k : Nat} (hk : 0 < k) (num den : Nat) :
    nearest (k * num) (k * den) = nearest num den := by
  have hs : surplus (k * num) (k * den) = surplus num den := by
    unfold surplus
    rw [Nat.mul_div_mul_left num den hk]
  simp only [nearest, hs, Nat.mul_assoc, round_quotient_mul hk]

/-- Rounding only looks at the value of a fraction. -/
theorem nearest_cross {n d n' d' : Nat} (hd : 0 < d) (hd' : 0 < d') (h : n * d' = n' * d) :
    nearest n d = nearest n' d' := by
  rw [← nearest_mul hd' n d, ← nearest_mul hd n' d', Nat.mul_comm d' n, h, Nat.mul_comm n' d,
    Nat.mul_comm d' d]

theorem round_congr {n d n' d' : Nat} (h : nearest n d = nearest n' d') (negative : Bool) :
    round negative n d = round negative n' d' := by
  cases negative <;> simp only [round, h]

theorem round_cross {n d n' d' : Nat} (hd : 0 < d) (hd' : 0 < d') (h : n * d' = n' * d)
    (negative : Bool) : round negative n d = round negative n' d' :=
  round_congr (nearest_cross hd hd' h) negative

/-- A number of the format has no bits beyond the 53 that are kept. -/
theorem surplus_dvd {n : Nat} (h : Fits n) : 2 ^ surplus n 1 ∣ n := by
  obtain ⟨_, m, k, hm, rfl⟩ := h
  change 2 ^ surplus (m * 2 ^ k) 1 ∣ m * 2 ^ k
  change m ≤ 2 ^ 53 at hm
  have hs : surplus (m * 2 ^ k) 1 = (m * 2 ^ k).log2 - 52 := by
    unfold surplus
    rw [Nat.div_one]
  rcases Nat.lt_or_eq_of_le hm with hlt | rfl
  · by_cases hz : m * 2 ^ k = 0
    · rw [hz]
      exact Nat.dvd_zero _
    · have hb : (m * 2 ^ k).log2 < 53 + k := by
        rw [Nat.log2_lt hz, Nat.pow_add]
        exact Nat.mul_lt_mul_of_pos_right hlt (Nat.two_pow_pos k)
      rw [hs]
      exact Nat.dvd_mul_left_of_dvd (Nat.pow_dvd_pow 2 (by omega)) m
  · rw [hs, ← Nat.pow_add, Nat.log2_two_pow]
    exact Nat.pow_dvd_pow 2 (by omega)

theorem nearest_exact {n : Nat} (h : Fits n) : nearest n 1 = n := by
  obtain ⟨q, hq⟩ := surplus_dvd h
  have hp : 0 < 2 ^ surplus n 1 := Nat.two_pow_pos _
  unfold nearest roundQuotient
  change (let q := n / (1 * 2 ^ surplus n 1); let r := n % (1 * 2 ^ surplus n 1)
    if 2 * r < 1 * 2 ^ surplus n 1 then q
    else if 1 * 2 ^ surplus n 1 < 2 * r then q + 1 else q + q % 2) * 2 ^ surplus n 1 = n
  have hr : n % 2 ^ surplus n 1 = 0 := Nat.mod_eq_zero_of_dvd ⟨q, hq⟩
  simp only [Nat.one_mul, hr, Nat.mul_zero, hp, ↓reduceIte]
  exact Nat.div_mul_cancel ⟨q, hq⟩

/-- A fraction whose value is a number of the format is rounded to that number. -/
theorem nearest_of_cross {num den n : Nat} (hd : 0 < den) (hn : Fits n) (h : num = n * den) :
    nearest num den = n := by
  rw [nearest_cross hd Nat.one_pos (by rw [Nat.mul_one, h]), nearest_exact hn]

theorem round_of_nearest {num den n : Nat} (hn : Fits n) (h : nearest num den = n) :
    round false num den = finite n (by simpa using hn) := by
  have hlt : nearest num den < Nat.pow 2 2098 := h ▸ hn.1
  unfold round
  rw [dif_pos hlt]
  simp only [h]

theorem nearest_of_round {num den n : Nat} {hn : Fits (n : Int).natAbs}
    (h : round false num den = finite n hn) : nearest num den = n := by
  unfold round at h
  split at h
  · simp only [finite.injEq] at h
    exact_mod_cast h
  · contradiction

/-- With a minus, the magnitude is rounded in the same way. -/
theorem round_negative {num den n : Nat} (hn : Fits n) (h : nearest num den = n) :
    round true num den = finite (-n) (by simpa using hn) := by
  have hlt : nearest num den < Nat.pow 2 2098 := h ▸ hn.1
  unfold round
  rw [dif_pos hlt]
  simp only [h]

theorem two_pow_pos (k : Nat) : 0 < Nat.pow 2 k :=
  Nat.two_pow_pos k

theorem fits_zero : Fits 0 := by
  have h := two_pow_pos 2098
  exact And.intro h ⟨0, 0, Nat.zero_le _, rfl⟩

theorem zero_eq : (0 : Binary64) = ofNat 0 :=
  rfl

theorem nearest_small {num den : Nat} (h : 2 * num < den) : nearest num den = 0 := by
  have hq : num / den = 0 := Nat.div_eq_of_lt (by omega)
  have hs : surplus num den = 0 := by simp [surplus, hq]
  have hm : num % den = num := Nat.mod_eq_of_lt (by omega)
  simp [nearest, roundQuotient, hs, hq, hm, h]

theorem round_small {num den : Nat} (h : 2 * num < den) (negative : Bool) :
    round negative num den = 0 := by
  have hz : nearest 0 1 = 0 := nearest_exact fits_zero
  rw [zero_eq, ofNat, Nat.zero_mul, round_of_nearest fits_zero hz]
  cases negative with
  | false => exact round_of_nearest fits_zero (nearest_small h)
  | true => exact round_negative fits_zero (nearest_small h)

theorem le_nearest {p num den : Nat} (hp : 52 ≤ p) (h : Nat.pow 2 p ≤ num / den) :
    Nat.pow 2 p ≤ nearest num den := by
  change 2 ^ p ≤ num / den at h
  change 2 ^ p ≤ roundQuotient num (den * 2 ^ surplus num den) * 2 ^ surplus num den
  have hpos : 0 < 2 ^ p := Nat.two_pow_pos p
  have hlog : p ≤ (num / den).log2 := (Nat.le_log2 (by omega)).mpr h
  have hs : surplus num den = (num / den).log2 - 52 := rfl
  have hq : 2 ^ 52 ≤ num / (den * 2 ^ surplus num den) := by
    rw [← Nat.div_div_eq_div_mul, Nat.le_div_iff_mul_le (Nat.two_pow_pos _), ← Nat.pow_add]
    exact Nat.le_trans (Nat.pow_le_pow_right (by decide) (by omega)) (Nat.log2_self_le (by omega))
  have hr : num / (den * 2 ^ surplus num den)
      ≤ roundQuotient num (den * 2 ^ surplus num den) := by
    unfold roundQuotient
    dsimp only
    split
    · exact Nat.le_refl _
    · split <;> omega
  have hm := Nat.mul_le_mul_right (2 ^ surplus num den) (Nat.le_trans hq hr)
  rw [← Nat.pow_add] at hm
  exact Nat.le_trans (Nat.pow_le_pow_right (by decide) (by omega)) hm

/-- Beyond the largest exponent the result is infinite. -/
theorem round_large {num den : Nat} (h : Nat.pow 2 2098 ≤ num / den) (negative : Bool) :
    round negative num den = infinite negative :=
  dif_neg (Nat.not_lt.mpr (le_nearest (by omega) h))

theorem pow_eq (a b : Nat) : Nat.pow a b = a ^ b :=
  rfl

theorem one_eq : one = 2 ^ 1074 :=
  pow_eq 2 1074

theorem ten_pow_ge (k : Nat) : 2 ^ (3 * k) ≤ 10 ^ k := by
  rw [Nat.pow_mul]
  exact Nat.pow_le_pow_left (by decide) k

theorem decimal_large {m : Nat} {e : Int} (hm : 0 < m) (he : 400 < e) :
    Nat.pow 2 2098 ≤ m * Nat.pow 10 e.toNat * one / Nat.pow 10 (-e).toNat := by
  have h0 : (-e).toNat = 0 := by omega
  have h1 : Nat.pow 2 2098 ≤ Nat.pow 10 e.toNat * one := by
    rw [one_eq]
    change Nat.pow 2 2098 ≤ 10 ^ e.toNat * 2 ^ 1074
    refine Nat.le_trans ?_ (Nat.mul_le_mul_right _ (ten_pow_ge e.toNat))
    rw [← Nat.pow_add]
    exact Nat.pow_le_pow_right (by decide) (by omega)
  rw [h0]
  change Nat.pow 2 2098 ≤ m * Nat.pow 10 e.toNat * one / 1
  rw [Nat.div_one, Nat.mul_assoc]
  exact Nat.le_trans h1 (Nat.le_mul_of_pos_left _ hm)

theorem decimal_small {m : Nat} {e : Int} (he : m.log2 + 1 + e < -400) :
    2 * (m * Nat.pow 10 e.toNat * one) < Nat.pow 10 (-e).toNat := by
  have h0 : e.toNat = 0 := by omega
  have hlog : m < 2 ^ (m.log2 + 1) := Nat.lt_log2_self
  rw [h0, one_eq]
  change 2 * (m * 1 * 2 ^ 1074) < 10 ^ (-e).toNat
  calc 2 * (m * 1 * 2 ^ 1074) = m * 2 ^ 1075 := by
        rw [Nat.mul_one, Nat.mul_left_comm, ← Nat.pow_succ']
    _ < 2 ^ (m.log2 + 1) * 2 ^ 1075 := Nat.mul_lt_mul_of_pos_right hlog (Nat.two_pow_pos 1075)
    _ = 2 ^ (m.log2 + 1 + 1075) := (Nat.pow_add ..).symm
    _ ≤ 2 ^ (3 * (-e).toNat) := Nat.pow_le_pow_right (by decide) (by omega)
    _ ≤ 10 ^ (-e).toNat := ten_pow_ge _

/-- Whatever the size of its power, a decimal is read as the nearest number. -/
theorem of_decimal_round (negative : Bool) (m : Nat) (e : Int) :
    ofDecimal negative m e =
      round negative (m * Nat.pow 10 e.toNat * one) (Nat.pow 10 (-e).toNat) := by
  unfold ofDecimal
  split
  · rename_i hm
    rw [hm, Nat.zero_mul, Nat.zero_mul]
    exact (round_small (Nat.pow_pos (by decide)) negative).symm
  · rename_i hm
    split
    · rename_i he
      exact (round_large (decimal_large (Nat.pos_of_ne_zero hm) he) negative).symm
    · split
      · rename_i he
        exact (round_small (decimal_small he) negative).symm
      · split
        · rename_i k _ _
          have h0 : (Int.ofNat k).toNat = k := rfl
          have h1 : (-Int.ofNat k).toNat = 0 := by simp
          rw [h0, h1, pow_eq 10 0, Nat.pow_zero]
        · rename_i k _ _
          have h0 : (Int.negSucc k).toNat = 0 := rfl
          have h1 : (-Int.negSucc k).toNat = k + 1 := rfl
          rw [h0, h1, pow_eq 10 0, Nat.pow_zero, Nat.mul_one]

/-- Zeros can be moved from the digits of a decimal into its power. -/
theorem of_decimal_shift (negative : Bool) (m k : Nat) (e : Int) :
    ofDecimal negative (m * Nat.pow 10 k) e = ofDecimal negative m (e + k) := by
  rw [of_decimal_round, of_decimal_round]
  refine round_cross (Nat.pow_pos (by decide)) (Nat.pow_pos (by decide)) ?_ negative
  change m * 10 ^ k * 10 ^ e.toNat * one * 10 ^ (-(e + k)).toNat
    = m * 10 ^ (e + k).toNat * one * 10 ^ (-e).toNat
  have he : k + e.toNat + (-(e + k)).toNat = (e + k).toNat + (-e).toNat := by omega
  calc m * 10 ^ k * 10 ^ e.toNat * one * 10 ^ (-(e + k)).toNat
      = m * one * 10 ^ (k + e.toNat + (-(e + k)).toNat) := by ring
    _ = m * 10 ^ (e + k).toNat * one * 10 ^ (-e).toNat := by
        rw [he]
        ring

theorem of_decimal_nat (n : Nat) : ofDecimal false n 0 = ofNat n := by
  have h0 : (0 : Int).toNat = 0 := rfl
  have h1 : (-0 : Int).toNat = 0 := rfl
  rw [of_decimal_round, h0, h1, pow_eq, Nat.pow_zero, Nat.mul_one, ofNat]

/-- A decimal that stands for a number of the format is read as that number, with either sign. -/
theorem of_decimal_negative {m n : Nat} {e : Int} {hn : Fits (n : Int).natAbs}
    (h : ofDecimal false m e = finite n hn) :
    ofDecimal true m e = finite (-n) (by simpa using hn) := by
  rw [of_decimal_round] at h ⊢
  exact round_negative (by simpa using hn) (nearest_of_round h)

end SchemaHistory.Binary64
