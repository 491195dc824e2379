import SchemaHistory.Binary64.Basic
import SchemaHistory.Text.Blank

namespace SchemaHistory.Binary64

/-- The number nearest to `m · 10^e`. Powers that leave the range for certain are not computed. -/
def ofDecimal (negative : Bool) (m : Nat) (e : Int) : Binary64 :=
  if m = 0 then 0
  else if 400 < e then infinite negative
  else if m.log2 + 1 + e < -400 then 0
  else
    match e with
    | .ofNat k => round negative (m * Nat.pow 10 k * one) 1
    | .negSucc k => round negative (m * one) (Nat.pow 10 (k + 1))

/-- A decimal as it is written: the digits on both sides of the point, then a power of ten. -/
structure Numeral where
  negative : Bool
  whole : List Char
  /-- The digits after the point, if there is a point. -/
  fraction : Option (List Char)
  exponent : Int

namespace Numeral

def value (n : Numeral) : Binary64 :=
  let fraction := n.fraction.getD []
  ofDecimal n.negative (Nat.ofDigitChars 10 (n.whole ++ fraction) 0)
    (n.exponent - fraction.length)

/-- Reads an optional sign: whether it is a minus, and the rest. -/
def sign : List Char → Bool × List Char
  | '-' :: cs => (true, cs)
  | '+' :: cs => (false, cs)
  | cs => (false, cs)

/-- Reads what follows the digits: nothing, or a mark and a signed power of ten. -/
def exponent? : List Char → Option (Int × List Char)
  | [] => some (0, [])
  | c :: cs =>
    if c = 'e' ∨ c = 'E' then
      let (negative, cs) := sign cs
      let digits := cs.takeWhile Char.isDigit
      let power : Int := Nat.ofDigitChars 10 digits 0
      if digits.isEmpty then none
      else some (if negative then -power else power, cs.dropWhile Char.isDigit)
    else some (0, c :: cs)

/-- Reads a point and the digits after it, if there is a point. -/
def point : List Char → Option (List Char) × List Char
  | '.' :: cs => (some (cs.takeWhile Char.isDigit), cs.dropWhile Char.isDigit)
  | cs => (none, cs)

/-- Reads a decimal without its sign, and returns the rest of the text. -/
def unsigned? (negative : Bool) (cs : List Char) : Option (Numeral × List Char) :=
  let whole := cs.takeWhile Char.isDigit
  let (fraction, cs) := point (cs.dropWhile Char.isDigit)
  if whole.isEmpty && (fraction.getD []).isEmpty then none
  else (exponent? cs).map fun (exponent, cs) => (⟨negative, whole, fraction, exponent⟩, cs)

theorem length_dropWhile_le (p : Char → Bool) (cs : List Char) :
    (cs.dropWhile p).length ≤ cs.length :=
  (List.dropWhile_sublist p).length_le

theorem length_sign_le (cs : List Char) : (sign cs).2.length ≤ cs.length := by
  unfold sign
  split <;> simp

theorem length_of_exponent? {cs rest : List Char} {e : Int}
    (h : exponent? cs = some (e, rest)) : rest.length ≤ cs.length := by
  cases cs with
  | nil => simp [exponent?] at h; simp [h]
  | cons c cs =>
    simp only [exponent?] at h
    split at h
    · split at h
      · simp at h
      · simp only [Option.some.injEq, Prod.mk.injEq] at h
        obtain ⟨-, rfl⟩ := h
        have h1 := length_dropWhile_le Char.isDigit (sign cs).2
        have h2 := length_sign_le cs
        simp only [List.length_cons]
        omega
    · simp only [Option.some.injEq, Prod.mk.injEq] at h
      simp [← h.2]

/-- A point that brings digits also takes up room. -/
theorem length_point (cs : List Char) :
    (point cs).2.length + ((point cs).1.getD []).length ≤ cs.length := by
  unfold point
  split
  · rename_i cs
    have : (cs.takeWhile Char.isDigit).length + (cs.dropWhile Char.isDigit).length = cs.length := by
      rw [← List.length_append, List.takeWhile_append_dropWhile]
    simp only [Option.getD_some, List.length_cons]
    omega
  · simp

theorem length_of_unsigned? {negative : Bool} {cs rest : List Char} {n : Numeral}
    (h : unsigned? negative cs = some (n, rest)) : rest.length < cs.length := by
  have h0 : (cs.takeWhile Char.isDigit).length + (cs.dropWhile Char.isDigit).length
      = cs.length := by
    rw [← List.length_append, List.takeWhile_append_dropWhile]
  have h1 := length_point (cs.dropWhile Char.isDigit)
  simp only [unsigned?] at h
  split at h
  · simp at h
  · rename_i hne
    obtain ⟨⟨e, r⟩, he, hr⟩ := Option.map_eq_some_iff.mp h
    simp only [Prod.mk.injEq] at hr
    obtain ⟨-, rfl⟩ := hr
    have h2 := length_of_exponent? he
    simp only [Bool.and_eq_true, List.isEmpty_iff, ← List.length_eq_zero_iff] at hne
    omega

/-- The form that data files allow: no digit before the point is missing or needless, and some
digit follows a point. -/
def isStrict (n : Numeral) : Bool :=
  (match n.whole with
    | [] => false
    | ['0'] => true
    | c :: _ => c != '0')
  && n.fraction != some []

end Numeral

def digitValue (c : Char) : Option Nat :=
  if c.isDigit then some (c.toNat - '0'.toNat)
  else if 'a' ≤ c ∧ c ≤ 'f' then some (10 + (c.toNat - 'a'.toNat))
  else if 'A' ≤ c ∧ c ≤ 'F' then some (10 + (c.toNat - 'A'.toNat))
  else none

/-- The whole number that digits of a base spell. -/
def ofDigits? (base : Nat) (cs : List Char) : Option Nat :=
  if cs.isEmpty then none
  else cs.foldlM (fun n c => (digitValue c).bind fun d =>
    if d < base then some (base * n + d) else none) 0

def ofSigned? (negative : Bool) (cs : List Char) : Option Binary64 :=
  if cs = "Infinity".toList then some (infinite negative)
  else
    match Numeral.unsigned? negative cs with
    | some (n, []) => some n.value
    | _ => none

/-- The number that a typed text stands for. Blanks at its ends do not count, and a blank text
is zero. Bases 16, 8 and 2 have a mark and no sign. -/
def ofText (text : String) : Binary64 :=
  match Text.trimChars text.toList with
  | [] => 0
  | '0' :: c :: cs =>
    if c = 'x' ∨ c = 'X' then (ofDigits? 16 cs).elim nan ofNat
    else if c = 'o' ∨ c = 'O' then (ofDigits? 8 cs).elim nan ofNat
    else if c = 'b' ∨ c = 'B' then (ofDigits? 2 cs).elim nan ofNat
    else (ofSigned? false ('0' :: c :: cs)).getD nan
  | '-' :: cs => (ofSigned? true cs).getD nan
  | '+' :: cs => (ofSigned? false cs).getD nan
  | cs => (ofSigned? false cs).getD nan

end SchemaHistory.Binary64
