import SchemaHistory.Json.Basic
import SchemaHistory.Json.Token

namespace SchemaHistory.Json

/-- A container that is not closed yet. -/
inductive Frame where
  /-- The items so far, last one first. -/
  | array (items : List Json)
  /-- The members so far, and the name of the one being read. -/
  | object (members : List (String × Json)) (name : String)

/-- What a reader expects next. The frames are those around it, innermost first. -/
inductive Reader where
  | value (frames : List Frame)
  | itemOrEnd (frames : List Frame)
  | afterItem (frames : List Frame) (items : List Json)
  | nameOrEnd (frames : List Frame)
  | name (frames : List Frame) (members : List (String × Json))
  | colon (frames : List Frame) (members : List (String × Json)) (name : String)
  | afterMember (frames : List Frame) (members : List (String × Json))
  | finished (value : Json)

namespace Reader

/-- Goes on after a complete value. Of members with one name the last value counts, at the place of
the first. -/
def complete (v : Json) : List Frame → Reader
  | [] => finished v
  | .array items :: frames => afterItem frames (v :: items)
  | .object members n :: frames => afterMember frames (put n v members)

def start (frames : List Frame) : Token → Option Reader
  | .openArray => some (itemOrEnd frames)
  | .openObject => some (nameOrEnd frames)
  | .null => some (complete null frames)
  | .bool b => some (complete (bool b) frames)
  | .number x => some (complete (number x) frames)
  | .string s => some (complete (string s) frames)
  | _ => none

def step : Reader → Token → Option Reader
  | value frames, t => start frames t
  | itemOrEnd frames, .closeArray => some (complete (array []) frames)
  | itemOrEnd frames, t => start (.array [] :: frames) t
  | afterItem frames items, .comma => some (value (.array items :: frames))
  | afterItem frames items, .closeArray => some (complete (array items.reverse) frames)
  | nameOrEnd frames, .closeObject => some (complete (object []) frames)
  | nameOrEnd frames, .string n => some (colon frames [] n)
  | name frames members, .string n => some (colon frames members n)
  | colon frames members n, .colon => some (value (.object members n :: frames))
  | afterMember frames members, .comma => some (name frames members)
  | afterMember frames members, .closeObject => some (complete (object members) frames)
  | _, _ => none

def run : Reader → List Token → Option Json
  | finished v, [] => some v
  | _, [] => none
  | r, t :: ts =>
    match r.step t with
    | some r' => run r' ts
    | none => none

end Reader

/-- Reads one JSON value that fills the whole text. -/
def read? (cs : List Char) : Option Json :=
  match Token.scan [] cs with
  | some tokens => Reader.run (.value []) tokens
  | none => none

def parse? (text : String) : Option Json :=
  read? text.toList

end SchemaHistory.Json
