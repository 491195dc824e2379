import SchemaHistory.Proofs.NumberText
import SchemaHistory.Store.Basic

namespace SchemaHistory.Binary64

theorem one_pos : 0 < one :=
  two_pow_pos 1074

theorem fits_whole {n : Nat} (hn : n ≤ safe) : Fits (n * one) := by
  refine And.intro ?_ ⟨n, 1074, hn, rfl⟩
  have h53 : n ≤ 2 ^ 53 := hn
  rw [one_eq, pow_eq]
  apply Nat.lt_of_le_of_lt (Nat.mul_le_mul_right _ h53)
  rw [← Nat.pow_add]
  exact Nat.pow_lt_pow_right (by decide) (by decide)

theorem fits_whole_units {n : Nat} (hn : n ≤ safe) : Fits ((n * one : Nat) : Int).natAbs := by
  rw [Int.natAbs_natCast]
  exact fits_whole hn

theorem of_nat_whole {n : Nat} (hn : n ≤ safe) :
    ofNat n = finite ((n * one : Nat) : Int) (fits_whole_units hn) :=
  round_of_nearest (fits_whole hn) (nearest_exact (fits_whole hn))

theorem finite_le {u v : Int} (hu : Fits u.natAbs) (hv : Fits v.natAbs) :
    finite u hu ≤ finite v hv ↔ u ≤ v := by
  change decide (u ≤ v) = true ↔ u ≤ v
  exact decide_eq_true_iff

theorem finite_lt {u v : Int} (hu : Fits u.natAbs) (hv : Fits v.natAbs) :
    finite u hu < finite v hv ↔ u < v := by
  change (!decide (v ≤ u)) = true ↔ u < v
  rw [Bool.not_eq_true', decide_eq_false_iff_not, Int.not_le]

theorem finite_max {u v : Int} (hu : Fits u.natAbs) (hv : Fits v.natAbs) :
    (finite u hu).max (finite v hv) = if u ≤ v then finite v hv else finite u hu := by
  by_cases h : u ≤ v
  · rw [if_pos h]
    exact if_pos ((finite_le hu hv).mpr h)
  · rw [if_neg h]
    exact if_neg (mt (finite_le hu hv).mp h)

theorem whole_units_le {a b : Nat} :
    ((a * one : Nat) : Int) ≤ ((b * one : Nat) : Int) ↔ a ≤ b := by
  rw [Int.ofNat_le]
  exact Nat.mul_le_mul_right_iff one_pos

theorem of_nat_le {a b : Nat} (ha : a ≤ safe) (hb : b ≤ safe) : ofNat a ≤ ofNat b ↔ a ≤ b := by
  rw [of_nat_whole ha, of_nat_whole hb, finite_le, whole_units_le]

theorem of_nat_lt {a b : Nat} (ha : a ≤ safe) (hb : b ≤ safe) : ofNat a < ofNat b ↔ a < b := by
  rw [of_nat_whole ha, of_nat_whole hb, finite_lt, ← Int.not_le, whole_units_le, Nat.not_le]

theorem of_nat_injective {a b : Nat} (ha : a ≤ safe) (hb : b ≤ safe) (h : ofNat a = ofNat b) :
    a = b := by
  refine Nat.le_antisymm ((of_nat_le ha hb).mp ?_) ((of_nat_le hb ha).mp ?_)
  · rw [h]
    exact (of_nat_le hb hb).mpr (Nat.le_refl b)
  · rw [h]
    exact (of_nat_le hb hb).mpr (Nat.le_refl b)

theorem of_nat_max {a b : Nat} (ha : a ≤ safe) (hb : b ≤ safe) :
    (ofNat a).max (ofNat b) = ofNat (Max.max a b) := by
  rw [of_nat_whole ha, of_nat_whole hb, finite_max]
  by_cases h : a ≤ b
  · rw [if_pos (whole_units_le.mpr h), Nat.max_eq_right h, of_nat_whole hb]
  · rw [if_neg (mt whole_units_le.mp h), Nat.max_eq_left (by omega), of_nat_whole ha]

theorem of_nat_integer {n : Nat} (hn : n ≤ safe) : (ofNat n).isInteger = true := by
  have hd : ((n * one : Nat) : Int) % one = 0 := by
    rw [Int.natCast_mul]
    exact Int.mul_emod_left ..
  rw [of_nat_whole hn, isInteger, toInt?, if_pos hd]
  rfl

/-- A whole number is written in its digits. -/
theorem of_nat_text {n : Nat} (hn : n ≤ safe) :
    (ofNat n).text = String.ofList (Nat.toDigits 10 n) := by
  have hd : n * one / one = n := Nat.mul_div_cancel n one_pos
  have hm : n * one % one = 0 := Nat.mul_mod_left n one
  rw [of_nat_whole hn]
  simp only [text, magnitudeText, Int.natAbs_natCast, hd, hm, hn, true_and, ↓reduceIte]
  rw [if_neg (by omega)]

/-- The whole numbers that are exact. -/
def Whole (x : Binary64) : Prop :=
  ∃ n, n ≤ safe ∧ x = ofNat n

/-- The versions that can be counted: whole numbers from one to below 2^53. -/
def Counted (x : Binary64) : Prop :=
  ∃ n, 0 < n ∧ n < safe ∧ x = ofNat n

/-- The versions that counting on can reach: also 2^53, which counting does not go beyond. -/
def Numbered (x : Binary64) : Prop :=
  ∃ n, 0 < n ∧ n ≤ safe ∧ x = ofNat n

theorem Counted.numbered {x : Binary64} (h : Counted x) : Numbered x := by
  obtain ⟨n, hp, hn, hx⟩ := h
  exact ⟨n, hp, Nat.le_of_lt hn, hx⟩

theorem Numbered.whole {x : Binary64} (h : Numbered x) : Whole x := by
  obtain ⟨n, _, hn, hx⟩ := h
  exact ⟨n, hn, hx⟩

theorem Counted.whole {x : Binary64} (h : Counted x) : Whole x :=
  h.numbered.whole

theorem counted_nat {n : Nat} (h0 : 0 < n) (h : n < safe) : Counted (ofNat n) :=
  ⟨n, h0, h, rfl⟩

theorem whole_zero : Whole 0 :=
  ⟨0, Nat.zero_le _, zero_eq⟩

theorem Numbered.positive {x : Binary64} (h : Numbered x) : 0 < x := by
  obtain ⟨n, hp, hn, hx⟩ := h
  rw [hx]
  exact (of_nat_lt (Nat.zero_le _) hn).mpr hp

theorem Numbered.integer {x : Binary64} (h : Numbered x) : x.isInteger = true := by
  obtain ⟨n, _, hn, hx⟩ := h
  rw [hx]
  exact of_nat_integer hn

theorem whole_le_antisymm {x y : Binary64} (hx : Whole x) (hy : Whole y) (h : x ≤ y)
    (h' : y ≤ x) : x = y := by
  obtain ⟨m, hm, hx⟩ := hx
  obtain ⟨n, hn, hy⟩ := hy
  rw [hx, hy] at h h' ⊢
  rw [Nat.le_antisymm ((of_nat_le hm hn).mp h) ((of_nat_le hn hm).mp h')]

theorem whole_le_total {x y : Binary64} (hx : Whole x) (hy : Whole y) : x ≤ y ∨ y ≤ x := by
  obtain ⟨m, hm, hx⟩ := hx
  obtain ⟨n, hn, hy⟩ := hy
  rw [hx, hy, of_nat_le hm hn, of_nat_le hn hm]
  exact Nat.le_total m n

theorem whole_le_refl {x : Binary64} (hx : Whole x) : x ≤ x :=
  (whole_le_total hx hx).elim id id

theorem whole_le_trans {x y z : Binary64} (hx : Whole x) (hy : Whole y) (hz : Whole z)
    (h : x ≤ y) (h' : y ≤ z) : x ≤ z := by
  obtain ⟨l, hl, hx⟩ := hx
  obtain ⟨m, hm, hy⟩ := hy
  obtain ⟨n, hn, hz⟩ := hz
  rw [hx, hy] at h
  rw [hy, hz] at h'
  rw [hx, hz]
  exact (of_nat_le hl hn).mpr
    (Nat.le_trans ((of_nat_le hl hm).mp h) ((of_nat_le hm hn).mp h'))

theorem whole_lt_iff {x y : Binary64} (hx : Whole x) (hy : Whole y) : x < y ↔ ¬y ≤ x := by
  obtain ⟨m, hm, hx⟩ := hx
  obtain ⟨n, hn, hy⟩ := hy
  rw [hx, hy, of_nat_lt hm hn, of_nat_le hn hm, Nat.not_le]

theorem whole_max {x y : Binary64} (hx : Whole x) (hy : Whole y) :
    x.max y = if x ≤ y then y else x := by
  obtain ⟨m, hm, hx⟩ := hx
  obtain ⟨n, hn, hy⟩ := hy
  rw [hx, hy, of_nat_max hm hn]
  by_cases h : m ≤ n
  · rw [if_pos ((of_nat_le hm hn).mpr h), Nat.max_eq_right h]
  · rw [if_neg (mt (of_nat_le hm hn).mp h), Nat.max_eq_left (by omega)]

/-- The largest of some whole numbers is one of them and above them all. -/
theorem foldl_max {ys : List Binary64} {x : Binary64} (hx : Whole x) (hy : ∀ y ∈ ys, Whole y) :
    ys.foldl max x ∈ x :: ys ∧ ∀ y ∈ x :: ys, y ≤ ys.foldl max x := by
  induction ys generalizing x with
  | nil =>
    refine ⟨List.mem_cons_self, ?_⟩
    intro y hm
    obtain rfl : y = x := by simpa using hm
    exact whole_le_refl hx
  | cons z ys ih =>
    obtain ⟨hz, hys⟩ := List.forall_mem_cons.mp hy
    have hm : Whole (x.max z) ∧ (x.max z = x ∨ x.max z = z) ∧ x ≤ x.max z ∧ z ≤ x.max z := by
      rw [whole_max hx hz]
      by_cases h : x ≤ z
      · rw [if_pos h]
        exact ⟨hz, .inr rfl, h, whole_le_refl hz⟩
      · rw [if_neg h]
        refine ⟨hx, .inl rfl, whole_le_refl hx, ?_⟩
        exact (whole_le_total hx hz).resolve_left h
    obtain ⟨hw, hor, hxm, hzm⟩ := hm
    obtain ⟨hin, hle⟩ := ih hw hys
    obtain ⟨htop, hrest⟩ := List.forall_mem_cons.mp hle
    have hf : Whole (ys.foldl max (x.max z)) := by
      rcases List.mem_cons.mp hin with he | he
      · rw [he]
        exact hw
      · exact hys _ he
    rw [List.foldl_cons]
    refine ⟨?_, ?_⟩
    · rcases List.mem_cons.mp hin with he | he
      · rw [he]
        rcases hor with he | he
        · rw [he]
          exact List.mem_cons_self
        · rw [he]
          exact List.mem_cons_of_mem _ List.mem_cons_self
      · exact List.mem_cons_of_mem _ (List.mem_cons_of_mem _ he)
    · refine List.forall_mem_cons.mpr ⟨whole_le_trans hx hw hf hxm htop, ?_⟩
      exact List.forall_mem_cons.mpr ⟨whole_le_trans hz hw hf hzm htop, hrest⟩

end SchemaHistory.Binary64

namespace SchemaHistory.Store

open Binary64

/-- The name of a version file tells the version. -/
theorem version_file_injective : Function.Injective versionFile := by
  intro x y h
  apply text_injective
  simpa [versionFile, String.ext_iff] using h

/-- A name with digits in the place of the version stands for the number that they spell. -/
theorem version_of_spelled {name : String} {cs : List Char} (hne : cs ≠ [])
    (hd : ∀ c ∈ cs, c.isDigit = true) (h : name.toList = 'v' :: (cs ++ ".json".toList)) :
    versionOf? name = some (ofDecimal false (Nat.ofDigitChars 10 cs 0) 0) := by
  obtain ⟨h1, h2⟩ := span_append hd (fun c hc => by
    obtain rfl : '.' = c := by simpa using hc
    decide : ∀ c ∈ ".json".toList.head?, c.isDigit = false)
  have he : cs.isEmpty = false := by simpa using hne
  unfold versionOf?
  split
  · rename_i cs hc
    obtain ⟨_, rfl⟩ := List.cons.inj (h.symm.trans hc)
    dsimp only
    rw [h1, h2, he]
    exact if_pos (by decide)
  · rename_i hc
    exact absurd h (hc _)

theorem version_of_chars {name : String} {n : Nat}
    (h : name.toList = 'v' :: (Nat.toDigits 10 n ++ ".json".toList)) :
    versionOf? name = some (ofDecimal false n 0) := by
  rw [version_of_spelled Nat.toDigits_ne_nil (digits_number n) h, Nat.ofDigitChars_ten_toDigits]

theorem version_of_file {n : Nat} (hn : n ≤ safe) :
    versionOf? (versionFile (ofNat n)) = some (ofNat n) := by
  rw [← of_decimal_nat]
  apply version_of_chars
  rw [of_decimal_nat, versionFile, of_nat_text hn]
  simp

theorem version_of_numbered {x : Binary64} (h : x.Numbered) :
    versionOf? (versionFile x) = some x := by
  obtain ⟨n, _, hn, hx⟩ := h
  rw [hx]
  exact version_of_file hn

theorem version_of_latest : versionOf? latestFile = none := by
  decide

theorem latest_not_version (x : Binary64) : versionFile x ≠ latestFile := by
  intro h
  have hc := congrArg String.toList h
  simp [versionFile, latestFile] at hc

end SchemaHistory.Store
