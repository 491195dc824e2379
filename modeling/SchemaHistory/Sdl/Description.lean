import SchemaHistory.Json.Printer

namespace SchemaHistory.Sdl

/-- Puts a backslash before each run of three quotes, so that it does not end a block. -/
def escapeTripleQuotes : List Char → List Char
  | '"' :: '"' :: '"' :: cs => '\\' :: '"' :: '"' :: '"' :: escapeTripleQuotes cs
  | c :: cs => c :: escapeTripleQuotes cs
  | [] => []

/-- Indents a line. An empty line stays empty. -/
def indentLine (margin line : List Char) : List Char :=
  if line.isEmpty then [] else margin ++ line

def tripleQuote : List Char :=
  ['"', '"', '"']

/-- A description as a literal on lines of its own: quoted when it is one line, a block string
otherwise. -/
def descriptionChars (margin description : List Char) : List Char :=
  if '\n' ∈ description then
    let body := ((escapeTripleQuotes description).splitOn '\n').map (indentLine margin)
    margin ++ tripleQuote ++ '\n' :: ['\n'].intercalate body
      ++ '\n' :: margin ++ tripleQuote ++ ['\n']
  else margin ++ Json.quoteChars description ++ ['\n']

/-- What stands above a definition or a member. An empty description is none. -/
def descriptionText (shown : Bool) (margin : String) (description : Option String) : String :=
  match description with
  | none | some "" => ""
  | some d => if shown then String.ofList (descriptionChars margin.toList d.toList) else ""

end SchemaHistory.Sdl
