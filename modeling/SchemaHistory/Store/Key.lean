import SchemaHistory.Text.Units

namespace SchemaHistory.Key

/-- A key may be an address; the scheme of one does not count. -/
def withoutScheme (cs : List Char) : List Char :=
  if "https://".toList.isPrefixOf cs then cs.drop 8
  else if "http://".toList.isPrefixOf cs then cs.drop 7
  else cs

/-- Letters, digits, underscores, dashes and dots, all of ASCII. -/
def isSafe (c : Char) : Bool :=
  c.isAlphanum || c == '_' || c == '-' || c == '.'

/-- A slash becomes two underscores, and any other character that is not safe one underscore for
each of its 16-bit units. -/
def safeChars (c : Char) : List Char :=
  if isSafe c then [c]
  else if c = '/' then ['_', '_']
  else List.replicate (Text.unitsOf c).length '_'

/-- Keeps two underscores of each longer run. `run` counts those just before. -/
def squeeze (run : Nat) : List Char → List Char
  | [] => []
  | c :: cs =>
    if c = '_' then
      if run < 2 then '_' :: squeeze (run + 1) cs else squeeze run cs
    else c :: squeeze 0 cs

/-- The length that names are cut to. -/
def longest : Nat := 200

def nameChars (key : List Char) : List Char :=
  let name := (squeeze 0 ((withoutScheme key).flatMap safeChars)).take longest
  if name.all (· == '.') then '_' :: name else name

/-- The name of the directory that holds the versions of a key. An empty name, or one of dots alone,
gets an underscore in front. -/
def directoryName (key : String) : String :=
  String.ofList (nameChars key.toList)

end SchemaHistory.Key
