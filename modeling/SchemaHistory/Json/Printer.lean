import SchemaHistory.Binary64.Shortest
import SchemaHistory.Json.Basic

namespace SchemaHistory.Json

def hexDigit (n : Nat) : Char :=
  if n < 10 then Char.ofNat ('0'.toNat + n) else Char.ofNat ('a'.toNat + (n - 10))

/-- How a character is written inside a string. Only quotes, backslashes and control characters
below U+0020 are escaped. -/
def escape (c : Char) : List Char :=
  match c with
  | '"' => ['\\', '"']
  | '\\' => ['\\', '\\']
  | '\x08' => ['\\', 'b']
  | '\t' => ['\\', 't']
  | '\n' => ['\\', 'n']
  | '\x0c' => ['\\', 'f']
  | '\r' => ['\\', 'r']
  | _ =>
    if c.toNat < 0x20 then
      ['\\', 'u', '0', '0', hexDigit (c.toNat / 16), hexDigit (c.toNat % 16)]
    else [c]

def quoteChars (cs : List Char) : List Char :=
  '"' :: (cs.flatMap escape ++ ['"'])

def quote (text : String) : String :=
  String.ofList (quoteChars text.toList)

/-- JSON has no number that is not finite. -/
def numberText (x : Binary64) : String :=
  match x with
  | .finite _ _ => x.text
  | _ => "null"

mutual

/-- A value on one line, without spaces. -/
def compact : Json → String
  | null => "null"
  | bool true => "true"
  | bool false => "false"
  | number x => numberText x
  | string s => quote s
  | array items => "[" ++ String.intercalate "," (compactItems items) ++ "]"
  | object members => "\x7b" ++ String.intercalate "," (compactMembers members) ++ "\x7d"

def compactItems : List Json → List String
  | [] => []
  | v :: vs => compact v :: compactItems vs

def compactMembers : List (String × Json) → List String
  | [] => []
  | (name, v) :: members => (quote name ++ ":" ++ compact v) :: compactMembers members

end

def margin (depth : Nat) : String :=
  String.ofList (List.replicate (2 * depth) ' ')

/-- Puts each line of a container at one depth more than its brackets. -/
def block (depth : Nat) (opening closing : String) (lines : List String) : String :=
  match lines with
  | [] => opening ++ closing
  | _ =>
    opening ++ "\n" ++ margin (depth + 1)
      ++ String.intercalate (",\n" ++ margin (depth + 1)) lines
      ++ "\n" ++ margin depth ++ closing

mutual

/-- A value over several lines. Each item and member has a line of its own, indented by two spaces
for each container around it. -/
def prettyAt (depth : Nat) : Json → String
  | null => "null"
  | bool true => "true"
  | bool false => "false"
  | number x => numberText x
  | string s => quote s
  | array items => block depth "[" "]" (prettyItems (depth + 1) items)
  | object members => block depth "\x7b" "\x7d" (prettyMembers (depth + 1) members)

def prettyItems (depth : Nat) : List Json → List String
  | [] => []
  | v :: vs => prettyAt depth v :: prettyItems depth vs

def prettyMembers (depth : Nat) : List (String × Json) → List String
  | [] => []
  | (name, v) :: members =>
    (quote name ++ ": " ++ prettyAt depth v) :: prettyMembers depth members

end

def pretty (v : Json) : String :=
  prettyAt 0 v

mutual

/-- A value as running text: the items of a list parted by commas, nothing for null inside a list,
no members of an object. An object has no text if a member takes the name of the conversion, and a
list around it has none either. -/
def plain? : Json → Option String
  | null => some "null"
  | bool true => some "true"
  | bool false => some "false"
  | number x => some x.text
  | string s => some s
  | array items => (plainItems? items).map (String.intercalate ",")
  | object members =>
    if members.any fun m => m.1 = "toString" then none else some "[object Object]"

def plainItems? : List Json → Option (List String)
  | [] => some []
  | null :: vs => (plainItems? vs).map ("" :: ·)
  | v :: vs =>
    match plain? v, plainItems? vs with
    | some text, some texts => some (text :: texts)
    | _, _ => none

end

end SchemaHistory.Json
