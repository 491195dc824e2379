import SchemaHistory.Binary64.Decimal

namespace SchemaHistory.Binary64

/-- A decimal with a value: `digits`, read as one whole number, times `10^exponent`. -/
structure Decimal where
  digits : Nat
  exponent : Int
deriving DecidableEq, Repr

namespace Decimal

/-- Scales a magnitude so that its first digit stands left of the point. -/
def lift : Nat := Nat.pow 10 400

/-- The power of ten just above the magnitude `n`. -/
def order (n : Nat) : Int :=
  (Nat.toDigits 10 (n * lift / one)).length - 400

/-- The magnitude `n` as a fraction of the step `10^e`. -/
def inSteps (n : Nat) (e : Int) : Nat × Nat :=
  match e with
  | .ofNat k => (n, one * Nat.pow 10 k)
  | .negSucc k => (n * Nat.pow 10 (k + 1), one)

/-- The decimal with the power `e` that reads as `x`, whose magnitude is `num / den` steps: one of
its two neighbours. Of two the nearer is taken, or the even one if they are equally near. -/
def neighbour? (x : Binary64) (e : Int) : Nat × Nat → Option Decimal
  | (num, den) =>
    let below := num / den
    let twice := 2 * (num % den)
    let reads (m : Nat) := ofDecimal false m e = x
    if reads below then
      if reads (below + 1) && (den < twice || (den == twice && below % 2 == 1)) then
        some ⟨below + 1, e⟩
      else some ⟨below, e⟩
    else if reads (below + 1) then some ⟨below + 1, e⟩
    else none

/-- The decimal of `count` digits that reads as `x`, whose magnitude is `n`. -/
def onGrid? (x : Binary64) (n count : Nat) : Option Decimal :=
  let e := order n - count
  neighbour? x e (inSteps n e)

/-- Every digit of the magnitude `n`. -/
def exact (n : Nat) : Decimal :=
  ⟨n * Nat.pow 5 1074, -1074⟩

/-- The fewest digits that read as `x`, a positive number of magnitude `n`. -/
def shortest (x : Binary64) (n : Nat) : Decimal :=
  ((List.range' 1 17).findSome? (onGrid? x n)).getD (exact n)

end Decimal

/-- Positional up to 21 digits before the point and 6 zeros after it, otherwise with a power of
ten. `digits` has neither leading nor trailing zeros and its point stands after `point` digits. -/
def layOut (digits : List Char) (point : Int) : List Char :=
  let count : Int := digits.length
  if count ≤ point ∧ point ≤ 21 then
    digits ++ List.replicate (point - count).toNat '0'
  else if 0 < point ∧ point ≤ 21 then
    digits.take point.toNat ++ '.' :: digits.drop point.toNat
  else if -6 < point ∧ point ≤ 0 then
    '0' :: '.' :: (List.replicate (-point).toNat '0' ++ digits)
  else
    let mantissa := match digits with
      | c :: c' :: cs => c :: '.' :: c' :: cs
      | cs => cs
    let power := point - 1
    mantissa ++ 'e' :: (if power < 0 then '-' else '+') :: Nat.toDigits 10 power.natAbs

/-- Whole numbers up to this size have neighbours one apart. -/
def safe : Nat := Nat.pow 2 53

/-- The text of a positive number `x` of magnitude `n`. -/
def magnitudeText (x : Binary64) (n : Nat) : List Char :=
  if n % one = 0 ∧ n / one ≤ safe then Nat.toDigits 10 (n / one)
  else
    let d := Decimal.shortest x n
    let all := Nat.toDigits 10 d.digits
    layOut (all.reverse.dropWhile (· == '0')).reverse (all.length + d.exponent)

/-- A number as text, in the fewest digits that read as the same number. -/
def text : Binary64 → String
  | nan => "NaN"
  | infinite false => "Infinity"
  | infinite true => "-Infinity"
  | finite u fits =>
    let body := magnitudeText (finite u.natAbs fits) u.natAbs
    String.ofList (if u < 0 then '-' :: body else body)

end SchemaHistory.Binary64
