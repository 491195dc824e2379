namespace SchemaHistory

/-- A magnitude, counted in units of 2^-1074, that binary64 holds exactly: at most 53 significant
bits, below 2^1024. -/
def Binary64.Fits (n : Nat) : Prop :=
  n < Nat.pow 2 2098 ∧ ∃ m k, m ≤ Nat.pow 2 53 ∧ n = m * Nat.pow 2 k

/-- Numbers of IEEE 754 binary64. A finite one is counted in units of 2^-1074; its zero has no
sign. -/
inductive Binary64 where
  | nan
  | infinite (negative : Bool)
  | finite (units : Int) (fits : Binary64.Fits units.natAbs)
deriving DecidableEq

namespace Binary64

/-- The number of units in one. -/
def one : Nat := Nat.pow 2 1074

/-- The integer nearest to `num / den`; an exact half goes to the even neighbour. -/
def roundQuotient (num den : Nat) : Nat :=
  let q := num / den
  let r := num % den
  if 2 * r < den then q else if den < 2 * r then q + 1 else q + q % 2

theorem roundQuotient_le (num den : Nat) : roundQuotient num den ≤ num / den + 1 := by
  unfold roundQuotient
  dsimp only
  split
  · omega
  · split
    · omega
    · omega

/-- How many low bits the quotient `num / den` has beyond 53. -/
def surplus (num den : Nat) : Nat :=
  (num / den).log2 - 52

/-- The number of at most 53 significant bits nearest to `num / den`. -/
def nearest (num den : Nat) : Nat :=
  roundQuotient num (den * Nat.pow 2 (surplus num den)) * Nat.pow 2 (surplus num den)

theorem quotient_surplus_lt (num den : Nat) :
    num / (den * Nat.pow 2 (surplus num den)) < Nat.pow 2 53 := by
  change num / (den * 2 ^ surplus num den) < 2 ^ 53
  rw [← Nat.div_div_eq_div_mul]
  have h : num / den < 2 ^ (53 + surplus num den) := by
    have h1 : num / den < 2 ^ ((num / den).log2 + 1) := Nat.lt_log2_self
    exact Nat.lt_of_lt_of_le h1 (Nat.pow_le_pow_right (by decide) (by unfold surplus; omega))
  rw [Nat.pow_add] at h
  exact (Nat.div_lt_iff_lt_mul (Nat.two_pow_pos _)).mpr h

theorem fits_nearest {num den : Nat} (h : nearest num den < Nat.pow 2 2098) :
    Fits (nearest num den) := by
  refine ⟨h, _, _, ?_, rfl⟩
  have h1 := roundQuotient_le num (den * Nat.pow 2 (surplus num den))
  have h2 := quotient_surplus_lt num den
  omega

/-- The number nearest to `num / den` units, with the given sign. -/
def round (negative : Bool) (num den : Nat) : Binary64 :=
  if h : nearest num den < Nat.pow 2 2098 then
    match negative with
    | false => finite (nearest num den) (by simpa using fits_nearest h)
    | true => finite (-nearest num den) (by simpa using fits_nearest h)
  else
    infinite negative

def ofNat (n : Nat) : Binary64 :=
  round false (n * one) 1

def ofInt (n : Int) : Binary64 :=
  round (n < 0) (n.natAbs * one) 1

instance (n : Nat) : OfNat Binary64 n := ⟨ofNat n⟩

instance : Inhabited Binary64 := ⟨0⟩

def neg : Binary64 → Binary64
  | nan => nan
  | infinite s => infinite (!s)
  | finite u h => finite (-u) (by simpa using h)

def add : Binary64 → Binary64 → Binary64
  | nan, _ => nan
  | _, nan => nan
  | infinite s, infinite t => if s = t then infinite s else nan
  | infinite s, finite _ _ => infinite s
  | finite _ _, infinite t => infinite t
  | finite u _, finite v _ => round (u + v < 0) (u + v).natAbs 1

def mul : Binary64 → Binary64 → Binary64
  | nan, _ => nan
  | _, nan => nan
  | infinite s, infinite t => infinite (s != t)
  | infinite s, finite v _ => if v = 0 then nan else infinite (s != decide (v < 0))
  | finite u _, infinite t => if u = 0 then nan else infinite (t != decide (u < 0))
  | finite u _, finite v _ => round (u * v < 0) (u * v).natAbs one

def div : Binary64 → Binary64 → Binary64
  | nan, _ => nan
  | _, nan => nan
  | infinite _, infinite _ => nan
  | infinite s, finite v _ => infinite (s != decide (v < 0))
  | finite _ _, infinite _ => 0
  | finite u _, finite v _ =>
    if v = 0 then
      if u = 0 then nan else infinite (u < 0)
    else
      round (u * v < 0) (u.natAbs * one) v.natAbs

instance : Neg Binary64 := ⟨neg⟩
instance : Add Binary64 := ⟨add⟩
instance : Sub Binary64 := ⟨fun x y => x + -y⟩
instance : Mul Binary64 := ⟨mul⟩
instance : Div Binary64 := ⟨div⟩

/-- Nothing compares with a NaN. -/
def le : Binary64 → Binary64 → Bool
  | nan, _ => false
  | _, nan => false
  | infinite true, _ => true
  | _, infinite false => true
  | infinite false, _ => false
  | _, infinite true => false
  | finite u _, finite v _ => u ≤ v

def lt : Binary64 → Binary64 → Bool
  | nan, _ => false
  | _, nan => false
  | x, y => !(le y x)

instance : LE Binary64 := ⟨fun x y => le x y = true⟩
instance : LT Binary64 := ⟨fun x y => lt x y = true⟩
instance (x y : Binary64) : Decidable (x ≤ y) := inferInstanceAs (Decidable (_ = true))
instance (x y : Binary64) : Decidable (x < y) := inferInstanceAs (Decidable (_ = true))

/-- The larger of two numbers; a NaN wins. -/
def max : Binary64 → Binary64 → Binary64
  | nan, _ => nan
  | _, nan => nan
  | x, y => if x ≤ y then y else x

/-- The integer a number stands for, if it stands for one. -/
def toInt? : Binary64 → Option Int
  | finite u _ => if u % one = 0 then some (u / one) else none
  | _ => none

def isInteger (x : Binary64) : Bool :=
  x.toInt?.isSome

/-- The integer nearest to a number; an exact half goes up. -/
def roundHalfUp : Binary64 → Binary64
  | finite u _ => ofInt ((2 * u + one) / (2 * one))
  | x => x

end Binary64

end SchemaHistory
