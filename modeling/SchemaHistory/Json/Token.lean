import SchemaHistory.Binary64.Decimal
import SchemaHistory.Text.Units

namespace SchemaHistory.Json

inductive Token where
  | openArray
  | closeArray
  | openObject
  | closeObject
  | comma
  | colon
  | null
  | bool (value : Bool)
  | number (value : Binary64)
  | string (text : String)
deriving DecidableEq

namespace Token

/-- What may stand between tokens. -/
def isSpace (c : Char) : Bool :=
  c == ' ' || c == '\t' || c == '\n' || c == '\r'

/-- The character that a one-letter escape stands for. -/
def unescape : Char → Option Char
  | '"' => some '"'
  | '\\' => some '\\'
  | '/' => some '/'
  | 'b' => some '\x08'
  | 'f' => some '\x0c'
  | 'n' => some '\n'
  | 'r' => some '\r'
  | 't' => some '\t'
  | _ => none

/-- Reads a string up to its closing quote, as 16-bit units. `seen` holds the units so far, last
one first. -/
def scanString (seen : List Nat) : List Char → Option (List Nat × List Char)
  | [] => none
  | '"' :: cs => some (seen.reverse, cs)
  | '\\' :: 'u' :: a :: b :: c :: d :: cs =>
    match Binary64.ofDigits? 16 [a, b, c, d] with
    | some unit => scanString (unit :: seen) cs
    | none => none
  | '\\' :: e :: cs =>
    match unescape e with
    | some c => scanString (c.toNat :: seen) cs
    | none => none
  | c :: cs =>
    if c.toNat < 0x20 then none else scanString ((Text.unitsOf c).reverse ++ seen) cs

theorem length_of_scanString {seen units : List Nat} {cs rest : List Char}
    (h : scanString seen cs = some (units, rest)) : rest.length < cs.length := by
  fun_induction scanString seen cs with
  | case1 => simp at h
  | case2 => simp at h; obtain ⟨-, rfl⟩ := h; simp
  | case3 seen a b c d cs unit hu ih =>
    have := ih h
    simp only [List.length_cons]
    omega
  | case4 => simp at h
  | case5 seen e cs c hc he ih =>
    have := ih h
    simp only [List.length_cons]
    omega
  | case6 => simp at h
  | case7 => simp at h
  | case8 seen c cs _ _ _ hc ih =>
    have := ih h
    simp only [List.length_cons]
    omega

def readNumber (negative : Bool) (cs : List Char) : Option (Token × List Char) :=
  match Binary64.Numeral.unsigned? negative cs with
  | some (n, rest) => if n.isStrict then some (number n.value, rest) else none
  | none => none

/-- Reads the token that a text starts with, and returns the rest of the text. A string is a
sequence of Unicode scalar values: where an escape stands for a surrogate without its partner,
U+FFFD is read. -/
def read? : List Char → Option (Token × List Char)
  | '[' :: cs => some (openArray, cs)
  | ']' :: cs => some (closeArray, cs)
  | '{' :: cs => some (openObject, cs)
  | '}' :: cs => some (closeObject, cs)
  | ',' :: cs => some (comma, cs)
  | ':' :: cs => some (colon, cs)
  | 'n' :: 'u' :: 'l' :: 'l' :: cs => some (null, cs)
  | 't' :: 'r' :: 'u' :: 'e' :: cs => some (bool true, cs)
  | 'f' :: 'a' :: 'l' :: 's' :: 'e' :: cs => some (bool false, cs)
  | '"' :: cs =>
    match scanString [] cs with
    | some (units, rest) => some (string (String.ofList (Text.ofUnits units)), rest)
    | none => none
  | '-' :: cs => readNumber true cs
  | cs => readNumber false cs

theorem length_of_readNumber {negative : Bool} {cs rest : List Char} {t : Token}
    (h : readNumber negative cs = some (t, rest)) : rest.length < cs.length := by
  unfold readNumber at h
  split at h
  · rename_i n r hn
    split at h
    · simp only [Option.some.injEq, Prod.mk.injEq] at h
      obtain ⟨-, rfl⟩ := h
      exact Binary64.Numeral.length_of_unsigned? hn
    · simp at h
  · simp at h

theorem length_of_read? {cs rest : List Char} {t : Token} (h : read? cs = some (t, rest)) :
    rest.length < cs.length := by
  unfold read? at h
  split at h
  case h_10 cs =>
    split at h
    · rename_i units r hs
      simp only [Option.some.injEq, Prod.mk.injEq] at h
      obtain ⟨-, rfl⟩ := h
      exact Nat.lt_succ_of_lt (length_of_scanString hs)
    · simp at h
  case h_11 cs => exact Nat.lt_succ_of_lt (length_of_readNumber h)
  case h_12 => exact length_of_readNumber h
  all_goals
    simp only [Option.some.injEq, Prod.mk.injEq] at h
    obtain ⟨-, rfl⟩ := h
    simp only [List.length_cons]
    omega

/-- Reads every token of a text. `seen` holds the tokens so far, last one first. -/
def scan (seen : List Token) (cs : List Char) : Option (List Token) :=
  match _hs : cs.dropWhile isSpace with
  | [] => some seen.reverse
  | c :: cs' =>
    match _ht : read? (c :: cs') with
    | none => none
    | some (t, rest) => scan (t :: seen) rest
termination_by cs.length
decreasing_by
  have h1 := length_of_read? _ht
  have h2 := Binary64.Numeral.length_dropWhile_le isSpace cs
  rw [_hs] at h2
  omega

end Token

end SchemaHistory.Json
