namespace SchemaHistory.Text

/-- The 16-bit units that encode a character: one, or a pair of surrogates. -/
def unitsOf (c : Char) : List Nat :=
  if c.toNat < 0x10000 then [c.toNat]
  else [0xD800 + (c.toNat - 0x10000) / 0x400, 0xDC00 + (c.toNat - 0x10000) % 0x400]

/-- The units of a text. A text is a sequence of Unicode scalar values, so that surrogates only come
in pairs. -/
def units (s : String) : List Nat :=
  s.toList.flatMap unitsOf

/-- The characters that units encode. A surrogate without its partner becomes U+FFFD. `half` is the
first unit of a pair that is still open. -/
def ofUnitsFrom (half : Option Nat) (seen : List Char) : List Nat → List Char
  | [] => (if half.isSome then '\ufffd' :: seen else seen).reverse
  | u :: us =>
    let flushed := if half.isSome then '\ufffd' :: seen else seen
    if u < 0xD800 ∨ 0xDFFF < u then ofUnitsFrom none (Char.ofNat u :: flushed) us
    else if u < 0xDC00 then ofUnitsFrom (some u) flushed us
    else
      match half with
      | some h =>
        let c := Char.ofNat (0x10000 + (h - 0xD800) * 0x400 + (u - 0xDC00))
        ofUnitsFrom none (c :: seen) us
      | none => ofUnitsFrom none ('\ufffd' :: seen) us

/-- The text that units encode, in Unicode scalar values: U+FFFD stands for a surrogate without its
partner. -/
def ofUnits (us : List Nat) : List Char :=
  ofUnitsFrom none [] us

/-- The length of a text in 16-bit units. -/
def width (s : String) : Nat :=
  (units s).length

/-- Fills a text with spaces on the right until it is `n` units wide. -/
def padEnd (n : Nat) (s : String) : String :=
  s ++ String.ofList (List.replicate (n - width s) ' ')

/-- Texts are ordered by their 16-bit units. -/
def unitsLe (a b : String) : Bool :=
  !(units b).lex (units a)

def sortByUnits (xs : List String) : List String :=
  xs.mergeSort unitsLe

end SchemaHistory.Text
