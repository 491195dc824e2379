import SchemaHistory.Json.Reader
import SchemaHistory.Text.Blank

namespace SchemaHistory.Json

/-- Drops each comma that only blanks part from a closing bracket, and those blanks. `held` is a
comma with the blanks after it whose fate is open, and `seen` the text before it; both are last
character first. -/
def dropTrailingCommas (held seen : List Char) : List Char → List Char
  | [] => (held ++ seen).reverse
  | c :: cs =>
    if c = ',' then dropTrailingCommas [','] (held ++ seen) cs
    else if c = ']' ∨ c = '}' then dropTrailingCommas [] (c :: seen) cs
    else if held ≠ [] ∧ Text.isBlank c then dropTrailingCommas (c :: held) seen cs
    else dropTrailingCommas [] (c :: (held ++ seen)) cs

/-- Reads JSON text as tools save it: with blanks or a byte order mark around it. Where it is not
JSON, commas before closing brackets are forgiven. -/
def parseLenient? (text : String) : Option Json :=
  let cs := Text.trimChars text.toList
  match read? cs with
  | some v => some v
  | none => read? (dropTrailingCommas [] [] cs)

end SchemaHistory.Json
