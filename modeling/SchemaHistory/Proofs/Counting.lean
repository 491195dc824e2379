import SchemaHistory.Proofs.WholeNumbers

namespace SchemaHistory.Binary64

/-- Rounding a whole number gives a whole number: below 2^53 it is exact, and above it the step is
a whole number itself. -/
theorem nearest_whole {num : Nat} (h : one ∣ num) : one ∣ nearest num 1 := by
  rw [one_eq] at h ⊢
  unfold nearest
  rw [pow_eq, Nat.one_mul]
  rcases Nat.le_total 1074 (surplus num 1) with hs | hs
  · exact Nat.dvd_mul_left_of_dvd (Nat.pow_dvd_pow 2 hs) _
  · have hd : 2 ^ surplus num 1 ∣ num := Nat.dvd_trans (Nat.pow_dvd_pow 2 hs) h
    have hr : num % 2 ^ surplus num 1 = 0 := Nat.mod_eq_zero_of_dvd hd
    have hq : roundQuotient num (2 ^ surplus num 1) = num / 2 ^ surplus num 1 := by
      unfold roundQuotient
      dsimp only
      rw [hr, if_pos (Nat.two_pow_pos _)]
    rw [hq, Nat.div_mul_cancel hd]
    exact h

/-- Rounding at most doubles a number. -/
theorem nearest_le_double {num : Nat} (h : 0 < num) : nearest num 1 ≤ 2 * num := by
  have hs : 2 ^ surplus num 1 ≤ num := by
    refine Nat.le_trans (Nat.pow_le_pow_right (by decide) ?_) (Nat.log2_self_le (by omega))
    rw [surplus, Nat.div_one]
    exact Nat.sub_le _ _
  have hq := roundQuotient_le num (2 ^ surplus num 1)
  have hm := Nat.div_mul_le_self num (2 ^ surplus num 1)
  unfold nearest
  rw [pow_eq, Nat.one_mul]
  calc roundQuotient num (2 ^ surplus num 1) * 2 ^ surplus num 1
      ≤ (num / 2 ^ surplus num 1 + 1) * 2 ^ surplus num 1 := Nat.mul_le_mul_right _ hq
    _ = num / 2 ^ surplus num 1 * 2 ^ surplus num 1 + 2 ^ surplus num 1 := Nat.succ_mul _ _
    _ ≤ 2 * num := by omega

/-- A number of the format leaves room for one more step below the next power of two. -/
theorem step_room {u : Nat} (hu : Fits u) :
    u + 2 ^ surplus u 1 ≤ 2 ^ (u.log2 + 1) := by
  have hs : surplus u 1 ≤ u.log2 + 1 := by
    rw [surplus, Nat.div_one]
    omega
  obtain ⟨a, ha⟩ := surplus_dvd hu
  obtain ⟨b, hb⟩ : 2 ^ surplus u 1 ∣ 2 ^ (u.log2 + 1) := Nat.pow_dvd_pow 2 hs
  have hlt : u < 2 ^ (u.log2 + 1) := Nat.lt_log2_self
  generalize 2 ^ surplus u 1 = step at *
  rw [hb] at hlt ⊢
  have hab : a < b := by
    rw [ha] at hlt
    exact Nat.lt_of_mul_lt_mul_left hlt
  calc u + step = step * (a + 1) := by rw [Nat.mul_succ, ← ha]
    _ ≤ step * b := Nat.mul_le_mul_left _ hab

/-- Beyond 2^54 one more is less than half a step. -/
theorem nearest_beyond {u : Nat} (hu : Fits u) (h : Nat.pow 2 1128 ≤ u) :
    nearest (u + one) 1 = u := by
  have hu0 : u ≠ 0 := Nat.ne_of_gt (Nat.lt_of_lt_of_le (two_pow_pos 1128) h)
  have hlog : 1128 ≤ u.log2 := (Nat.le_log2 hu0).mpr h
  have hsu : surplus u 1 = u.log2 - 52 := by rw [surplus, Nat.div_one]
  have hone : 2 * one < 2 ^ surplus u 1 := by
    rw [one_eq, ← Nat.pow_succ']
    exact Nat.pow_lt_pow_right (by decide) (by omega)
  have hl : (u + one).log2 = u.log2 := by
    have hroom := step_room hu
    have hself := Nat.log2_self_le hu0
    refine (Nat.log2_eq_iff (by omega)).mpr ⟨by omega, by omega⟩
  have hs : surplus (u + one) 1 = surplus u 1 := by
    rw [hsu, surplus, Nat.div_one, hl]
  obtain ⟨a, ha⟩ := surplus_dvd hu
  unfold nearest
  rw [hs, pow_eq, Nat.one_mul]
  generalize 2 ^ surplus u 1 = step at *
  have hr : (u + one) % step = one := by
    rw [ha, Nat.mul_add_mod, Nat.mod_eq_of_lt (by omega)]
  have hq : (u + one) / step = a := by
    rw [ha, Nat.mul_add_div (by omega), Nat.div_eq_of_lt (by omega), Nat.add_zero]
  unfold roundQuotient
  dsimp only
  rw [hr, if_pos hone, hq, ha, Nat.mul_comm]

/-- Counting on never leaves the range of the format. -/
theorem nearest_next_lt {u : Nat} (hu : Fits u) : nearest (u + one) 1 < Nat.pow 2 2098 := by
  rcases Nat.lt_or_ge u (Nat.pow 2 1128) with h | h
  · have hone : one ≤ Nat.pow 2 1128 := Nat.pow_le_pow_right (by decide) (by decide)
    have htop : 4 * Nat.pow 2 1128 < Nat.pow 2 2098 := by decide +kernel
    have hd := nearest_le_double (Nat.add_pos_right u one_pos)
    generalize Nat.pow 2 1128 = p at *
    omega
  · rw [nearest_beyond hu h]
    exact hu.1

theorem one_nat : (1 : Binary64) = ofNat 1 :=
  rfl

theorem add_finite {u v : Int} (hu : Fits u.natAbs) (hv : Fits v.natAbs) :
    finite u hu + finite v hv = round (u + v < 0) (u + v).natAbs 1 := by
  change add (finite u hu) (finite v hv) = _
  rw [add]

theorem add_natural {m n : Nat} (hm : Fits (m : Int).natAbs) (hn : Fits (n : Int).natAbs) :
    finite m hm + finite n hn = round false (m + n) 1 := by
  have h0 : ¬(m : Int) + n < 0 := by omega
  have ha : ((m : Int) + n).natAbs = m + n := by omega
  rw [add_finite, decide_eq_false h0, ha]

theorem add_one {n : Nat} (hn : Fits (n : Int).natAbs) :
    finite n hn + 1 = round false (n + one) 1 := by
  have h1 : 1 ≤ safe := by decide
  rw [one_nat, of_nat_whole h1, add_natural, Nat.one_mul]

theorem round_natural {num den : Nat} (h : nearest num den < Nat.pow 2 2098) :
    ∃ hm : Fits ((nearest num den : Nat) : Int).natAbs,
      round false num den = finite (nearest num den : Nat) hm :=
  ⟨by simpa using fits_nearest h, round_of_nearest (fits_nearest h) rfl⟩

theorem one_le_nearest (n : Nat) : one ≤ nearest (n + one) 1 := by
  have h : one ≤ (n + one) / 1 := by
    rw [Nat.div_one]
    exact Nat.le_add_left one n
  exact le_nearest (by decide : 52 ≤ 1074) h

theorem units_integer {u : Int} (hu : Fits u.natAbs) :
    (finite u hu).isInteger = true ↔ (one : Int) ∣ u := by
  rw [isInteger, toInt?, Int.dvd_iff_emod_eq_zero]
  by_cases h : u % one = 0
  · rw [if_pos h]
    exact iff_of_true rfl h
  · rw [if_neg h]
    exact iff_of_false Bool.false_ne_true h

theorem units_positive {u : Int} (hu : Fits u.natAbs) : 0 < finite u hu ↔ 0 < u := by
  rw [zero_eq, of_nat_whole (Nat.zero_le safe), finite_lt, Nat.zero_mul, Int.natCast_zero]

theorem le_of_positive {x : Binary64} (h : 0 < x) : 0 ≤ x := by
  rw [zero_eq, of_nat_whole (Nat.zero_le safe)] at h ⊢
  cases x with
  | nan => contradiction
  | infinite s =>
    cases s with
    | false => rfl
    | true => contradiction
  | finite u hu =>
    rw [finite_lt] at h
    rw [finite_le]
    exact Int.le_of_lt h

/-- After a positive whole number comes another one, whatever its size. -/
theorem next_whole {x : Binary64} (hi : x.isInteger = true) (hp : 0 < x) :
    (x + 1).isInteger = true ∧ 0 < x + 1 := by
  cases x with
  | nan => contradiction
  | infinite s => contradiction
  | finite u hu =>
    rw [units_integer] at hi
    rw [units_positive] at hp
    obtain ⟨n, hn⟩ := Int.eq_ofNat_of_zero_le (Int.le_of_lt hp)
    subst hn
    have hf : Fits n := by simpa using hu
    obtain ⟨hm, he⟩ := round_natural (nearest_next_lt hf)
    have hd : one ∣ nearest (n + one) 1 :=
      nearest_whole (Nat.dvd_add (Int.natCast_dvd_natCast.mp hi) (Nat.dvd_refl one))
    have h0 : 0 < nearest (n + one) 1 := Nat.lt_of_lt_of_le one_pos (one_le_nearest n)
    rw [add_one, he, units_integer, units_positive]
    exact ⟨Int.natCast_dvd_natCast.mpr hd, Int.natCast_pos.mpr h0⟩

/-- After a version comes the next one, up to 2^53. -/
theorem of_nat_succ {n : Nat} (hn : n < safe) : ofNat n + 1 = ofNat (n + 1) := by
  have hf := fits_whole hn
  rw [of_nat_whole (Nat.le_of_lt hn), of_nat_whole hn, add_one, ← Nat.succ_mul]
  exact round_of_nearest hf (nearest_exact hf)

theorem safe_succ : ofNat safe + 1 = ofNat safe := by
  have hf := fits_whole (Nat.le_refl safe)
  have hn : nearest (safe * one + one) 1 = safe * one := by decide +kernel
  rw [of_nat_whole (Nat.le_refl safe), add_one, round_of_nearest hf hn]

theorem numbered_one : Numbered 1 :=
  ⟨1, by decide, by decide, one_nat⟩

theorem numbered_safe : Numbered (ofNat safe) :=
  ⟨safe, by decide, Nat.le_refl safe, rfl⟩

theorem numbered_succ {n : Nat} (hn : n < safe) : Numbered (ofNat n + 1) := by
  rw [of_nat_succ hn]
  exact ⟨n + 1, Nat.succ_pos n, hn, rfl⟩

theorem Numbered.next {x : Binary64} (h : Numbered x) : Numbered (x + 1) := by
  obtain ⟨n, hp, hn, hx⟩ := h
  rcases Nat.lt_or_eq_of_le hn with hlt | he
  · rw [hx]
    exact numbered_succ hlt
  · have hs : x = ofNat safe := by rw [hx, he]
    rw [hs, safe_succ]
    exact numbered_safe

/-- A version below 2^53 differs from the one before. -/
theorem Numbered.next_ne {x : Binary64} (h : Numbered x) (hc : Counted (x + 1)) : x ≠ x + 1 := by
  obtain ⟨n, _, hn, hx⟩ := h
  obtain ⟨k, _, hk, hxk⟩ := hc
  intro he
  rw [hx] at he hxk
  rcases Nat.lt_or_eq_of_le hn with hlt | heq
  · rw [of_nat_succ hlt] at he
    exact absurd (of_nat_injective hn hlt he) (Nat.ne_of_lt (Nat.lt_succ_self n))
  · rw [← he] at hxk
    have hnk := of_nat_injective hn (Nat.le_of_lt hk) hxk
    omega

end SchemaHistory.Binary64
