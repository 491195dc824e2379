import Mathlib.Data.Prod.Lex
import SchemaHistory.Proofs.Counting

namespace SchemaHistory.Binary64

/-- The place of a number in the order. The infinities lie beyond all finite numbers. -/
def level : Binary64 → Int ×ₗ Int
  | nan => toLex (0, 0)
  | infinite true => toLex (-1, 0)
  | infinite false => toLex (1, 0)
  | finite u _ => toLex (0, u)

theorem ne_nan_of_le {x y : Binary64} (h : x ≤ y) : x ≠ nan ∧ y ≠ nan := by
  constructor
  · rintro rfl
    contradiction
  · rintro rfl
    cases x <;> contradiction

theorem le_iff_level {x y : Binary64} (hx : x ≠ nan) (hy : y ≠ nan) :
    x ≤ y ↔ x.level ≤ y.level := by
  cases x with
  | nan => exact absurd rfl hx
  | infinite s =>
    cases y with
    | nan => exact absurd rfl hy
    | infinite t => cases s <;> cases t <;> decide
    | finite v hv =>
      cases s
      · exact iff_of_false Bool.false_ne_true (by simp [level, Prod.Lex.toLex_le_toLex])
      · exact iff_of_true rfl (by simp [level, Prod.Lex.toLex_le_toLex])
  | finite u hu =>
    cases y with
    | nan => exact absurd rfl hy
    | infinite t =>
      cases t
      · exact iff_of_true rfl (by simp [level, Prod.Lex.toLex_le_toLex])
      · exact iff_of_false Bool.false_ne_true (by simp [level, Prod.Lex.toLex_le_toLex])
    | finite v hv =>
      rw [finite_le]
      simp [level, Prod.Lex.toLex_le_toLex]

theorem le_self {x : Binary64} (hx : x ≠ nan) : x ≤ x :=
  (le_iff_level hx hx).mpr (le_refl _)

theorem le_chain {x y z : Binary64} (h : x ≤ y) (h' : y ≤ z) : x ≤ z := by
  obtain ⟨hx, hy⟩ := ne_nan_of_le h
  obtain ⟨_, hz⟩ := ne_nan_of_le h'
  rw [le_iff_level hx hy] at h
  rw [le_iff_level hy hz] at h'
  exact (le_iff_level hx hz).mpr (le_trans h h')

theorem le_or_le {x y : Binary64} (hx : x ≠ nan) (hy : y ≠ nan) : x ≤ y ∨ y ≤ x := by
  rw [le_iff_level hx hy, le_iff_level hy hx]
  exact le_total _ _

theorem ne_nan_of_lt {x y : Binary64} (h : x < y) : x ≠ nan ∧ y ≠ nan := by
  constructor
  · rintro rfl
    contradiction
  · rintro rfl
    cases x <;> contradiction

theorem lt_iff_not_le {x y : Binary64} (hx : x ≠ nan) (hy : y ≠ nan) : x < y ↔ ¬y ≤ x := by
  have hl : x.lt y = !y.le x := by
    cases x with
    | nan => exact absurd rfl hx
    | _ =>
      cases y with
      | nan => exact absurd rfl hy
      | _ => rfl
  change x.lt y = true ↔ ¬y.le x = true
  rw [hl, Bool.not_eq_true', Bool.not_eq_true]

theorem lt_of_le_lt {x y z : Binary64} (h : x ≤ y) (h' : y < z) : x < z := by
  obtain ⟨hx, hy⟩ := ne_nan_of_le h
  obtain ⟨_, hz⟩ := ne_nan_of_lt h'
  rw [lt_iff_not_le hx hz]
  exact fun hzx => (lt_iff_not_le hy hz).mp h' (le_chain hzx h)

theorem lt_of_lt_le {x y z : Binary64} (h : x < y) (h' : y ≤ z) : x < z := by
  obtain ⟨hx, hy⟩ := ne_nan_of_lt h
  obtain ⟨_, hz⟩ := ne_nan_of_le h'
  rw [lt_iff_not_le hx hz]
  exact fun hzx => (lt_iff_not_le hx hy).mp h (le_chain h' hzx)

theorem le_of_lt {x y : Binary64} (h : x < y) : x ≤ y := by
  obtain ⟨hx, hy⟩ := ne_nan_of_lt h
  exact (le_or_le hx hy).resolve_right ((lt_iff_not_le hx hy).mp h)

theorem ne_of_lt {x y : Binary64} (h : x < y) : x ≠ y := by
  obtain ⟨hx, hy⟩ := ne_nan_of_lt h
  rintro rfl
  exact (lt_iff_not_le hx hy).mp h (le_self hx)

/-- The larger of two numbers stays below what is above both. A NaN is below nothing. -/
theorem max_le {x y z : Binary64} : x.max y ≤ z ↔ x ≤ z ∧ y ≤ z := by
  by_cases hx : x = nan
  · subst hx
    exact ⟨fun h => absurd rfl (ne_nan_of_le h).1, fun h => absurd rfl (ne_nan_of_le h.1).1⟩
  by_cases hy : y = nan
  · subst hy
    have hm : x.max nan = nan := by cases x <;> rfl
    rw [hm]
    exact ⟨fun h => absurd rfl (ne_nan_of_le h).1, fun h => h.2⟩
  have hm : x.max y = if x ≤ y then y else x := by
    cases x with
    | nan => exact absurd rfl hx
    | _ =>
      cases y with
      | nan => exact absurd rfl hy
      | _ => rfl
  rw [hm]
  by_cases h : x ≤ y
  · rw [if_pos h]
    exact ⟨fun hz => ⟨le_chain h hz, hz⟩, And.right⟩
  · rw [if_neg h]
    have h' := (le_or_le hx hy).resolve_left h
    exact ⟨fun hz => ⟨hz, le_chain h' hz⟩, And.left⟩

theorem foldl_max_le {ys : List Binary64} {x z : Binary64} :
    ys.foldl max x ≤ z ↔ x ≤ z ∧ ∀ y ∈ ys, y ≤ z := by
  induction ys generalizing x with
  | nil => simp
  | cons y ys ih => rw [List.foldl_cons, ih, max_le, List.forall_mem_cons, and_assoc]

/-- Rounding does not go below a number of the format. -/
theorem le_nearest_of_fits {n num : Nat} (hn : Fits n) (h : n ≤ num) : n ≤ nearest num 1 := by
  rcases Nat.eq_zero_or_pos n with rfl | hpos
  · exact Nat.zero_le _
  have hlog : n.log2 ≤ num.log2 :=
    (Nat.le_log2 (by omega)).mpr (Nat.le_trans (Nat.log2_self_le (by omega)) h)
  have hsn : surplus n 1 = n.log2 - 52 := by rw [surplus, Nat.div_one]
  have hsm : surplus num 1 = num.log2 - 52 := by rw [surplus, Nat.div_one]
  rcases Nat.lt_or_ge (surplus n 1) (surplus num 1) with hlt | hge
  · -- A shorter number is below the leading bit, which rounding keeps.
    have hlead : n ≤ 2 ^ num.log2 := by
      have hself : n < 2 ^ (n.log2 + 1) := Nat.lt_log2_self
      exact Nat.le_trans (Nat.le_of_lt hself) (Nat.pow_le_pow_right (by decide) (by omega))
    refine Nat.le_trans hlead (le_nearest (by omega) ?_)
    rw [Nat.div_one]
    exact Nat.log2_self_le (by omega)
  · have hd : 2 ^ surplus num 1 ∣ n :=
      Nat.dvd_trans (Nat.pow_dvd_pow 2 hge) (surplus_dvd hn)
    unfold nearest
    rw [pow_eq, Nat.one_mul]
    generalize 2 ^ surplus num 1 = step at *
    have hq : num / step ≤ roundQuotient num step := by
      unfold roundQuotient
      dsimp only
      split
      · exact Nat.le_refl _
      · split <;> omega
    calc n = n / step * step := (Nat.div_mul_cancel hd).symm
      _ ≤ num / step * step := Nat.mul_le_mul_right _ (Nat.div_le_div_right h)
      _ ≤ roundQuotient num step * step := Nat.mul_le_mul_right _ hq

/-- Counting on does not go back. -/
theorem le_next {x : Binary64} (hi : x.isInteger = true) (hp : 0 < x) : x ≤ x + 1 := by
  cases x with
  | nan => contradiction
  | infinite s => contradiction
  | finite u hu =>
    rw [units_positive] at hp
    obtain ⟨n, rfl⟩ := Int.eq_ofNat_of_zero_le (Int.le_of_lt hp)
    have hf : Fits n := by simpa using hu
    obtain ⟨hm, he⟩ := round_natural (nearest_next_lt hf)
    rw [add_one, he, finite_le, Int.ofNat_le]
    exact le_nearest_of_fits hf (Nat.le_add_right n one)

theorem zero_le_round (num den : Nat) : 0 ≤ round false num den := by
  rw [zero_eq, of_nat_whole (Nat.zero_le safe)]
  by_cases h : nearest num den < Nat.pow 2 2098
  · obtain ⟨hm, he⟩ := round_natural h
    rw [he, finite_le, Nat.zero_mul]
    exact Int.natCast_nonneg _
  · rw [round, dif_neg h]
    rfl

end SchemaHistory.Binary64

namespace SchemaHistory.Store

open Binary64 Numeral

theorem zero_le_version {name : String} {v : Binary64} (h : versionOf? name = some v) : 0 ≤ v := by
  unfold versionOf? at h
  split at h
  · dsimp only at h
    split at h
    · rw [← Option.some.inj h, of_decimal_nat]
      exact zero_le_round _ _
    · contradiction
  · contradiction

/-- The highest version of a directory stays below what is above all its version files. -/
theorem highest_le {entries : FileTree.Entries} {v : Binary64} :
    highest entries ≤ v ↔ 0 ≤ v ∧ ∀ e ∈ entries, ∀ w, versionOf? e.1 = some w → w ≤ v := by
  unfold highest
  rw [foldl_max_le]
  refine and_congr_right fun _ => ⟨fun h e he w hw => ?_, fun h w hw => ?_⟩
  · exact h w (List.mem_filterMap.mpr ⟨e, he, hw⟩)
  · obtain ⟨e, he, hw⟩ := List.mem_filterMap.mp hw
    exact h e he w hw

/-- A text of digits spells a whole number. -/
theorem spelled_digits {cs : List Char} {m : Nat} {e : Int} (h : Spells cs m e)
    (hd : ∀ c ∈ cs, c.isDigit = true) :
    ofDecimal false m e = ofDecimal false (Nat.ofDigitChars 10 cs 0) 0 := by
  obtain ⟨n, power, hn, ht, hv⟩ := h false
  have hfraction : n.fraction = none := by
    cases hf : n.fraction with
    | none => rfl
    | some ds =>
      have hm : '.' ∈ cs := by
        rw [ht.text, hf]
        simp [fractionChars]
      exact absurd (hd _ hm) (by decide)
  have hpower : power = none := by
    cases power with
    | none => rfl
    | some p =>
      have hm : 'e' ∈ cs := by
        rw [ht.text]
        simp [powerChars]
      exact absurd (hd _ hm) (by decide)
  have hw : cs = n.whole := by
    rw [ht.text, hfraction, hpower]
    simp [fractionChars, powerChars]
  have he : n.exponent = 0 := by
    rw [ht.exponent, hpower]
    rfl
  rw [← hv, Numeral.value, hn, hfraction, he, hw]
  simp

theorem version_of_digits {cs : List Char} {name : String} {v : Binary64}
    (hn : name.toList = 'v' :: (cs ++ ".json".toList)) (h : versionOf? name = some v) :
    (∀ c ∈ cs, c.isDigit = true) ∧ v = ofDecimal false (Nat.ofDigitChars 10 cs 0) 0 := by
  unfold versionOf? at h
  split at h
  · rename_i ds hd
    obtain ⟨_, rfl⟩ := List.cons.inj (hn.symm.trans hd)
    dsimp only at h
    split at h
    · rename_i hc
      rw [Bool.and_eq_true, beq_iff_eq] at hc
      have hsplit := List.takeWhile_append_dropWhile (p := Char.isDigit) (l := cs ++ ".json".toList)
      rw [hc.2] at hsplit
      have htake := List.append_cancel_right hsplit
      rw [htake] at h
      refine ⟨fun c hm => ?_, (Option.some.inj h).symm⟩
      rw [← htake] at hm
      exact List.mem_takeWhile_imp hm
    · contradiction
  · contradiction

/-- The version that the name of a version file stands for, if it stands for any, is the one that
was written. -/
theorem version_written {x v : Binary64} (h : versionOf? (versionFile x) = some v) : v = x := by
  have hn : (versionFile x).toList = 'v' :: (x.text.toList ++ ".json".toList) := by
    simp [versionFile]
  obtain ⟨hd, rfl⟩ := version_of_digits hn h
  cases x with
  | nan => exact absurd (hd 'N' (by decide)) (by decide)
  | infinite s =>
    cases s
    · exact absurd (hd 'I' (by decide)) (by decide)
    · exact absurd (hd '-' (by decide)) (by decide)
  | finite u hu =>
    simp only [text, String.toList_ofList] at hd ⊢
    by_cases hneg : u < 0
    · rw [if_pos hneg] at hd
      exact absurd (hd '-' List.mem_cons_self) (by decide)
    · rw [if_neg hneg] at hd ⊢
      obtain ⟨m, e, hs, hv⟩ := @spells_magnitude u.natAbs hu (finite u.natAbs hu) rfl
      have hu' : (u.natAbs : Int) = u := by omega
      rw [← spelled_digits hs hd, hv]
      simp only [hu']

end SchemaHistory.Store
