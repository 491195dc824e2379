import SchemaHistory.Json.Printer
import SchemaHistory.Text.Palette
import SchemaHistory.Text.Units

namespace SchemaHistory.Log

inductive Level where
  | debug
  | info
  | warn
  | error
deriving DecidableEq

namespace Level

def all : List Level :=
  [debug, info, warn, error]

def text : Level → String
  | debug => "debug"
  | info => "info"
  | warn => "warn"
  | error => "error"

def ofText? (text : String) : Option Level :=
  all.find? fun l => l.text = text

def rank : Level → Nat
  | debug => 0
  | info => 1
  | warn => 2
  | error => 3

def label : Level → String
  | debug => "DEBUG"
  | info => "INFO"
  | warn => "WARN"
  | error => "ERROR"

def ink : Level → Text.Ink
  | debug => .gray
  | info => .cyan
  | warn => .yellow
  | error => .red

end Level

/-- Which entries are written: those of at least a level, or none. -/
inductive Threshold where
  | least (level : Level)
  | silent
deriving DecidableEq

namespace Threshold

def all : List Threshold :=
  Level.all.map least ++ [silent]

def text : Threshold → String
  | least level => level.text
  | silent => "silent"

def ofText? (text : String) : Option Threshold :=
  all.find? fun t => t.text = text

/-- What is written unless the user says otherwise. -/
def standard : Threshold :=
  least .info

/-- A name that is no threshold counts as none. -/
def named (name : Option String) : Threshold :=
  (name.bind ofText?).getD standard

def passes (t : Threshold) (level : Level) : Bool :=
  match t with
  | least l => l.rank ≤ level.rank
  | silent => false

end Threshold

structure Entry where
  level : Level
  message : String
  data : List (String × Json)

/-- An entry on one line, after the time of day. -/
def Entry.line (palette : Text.Palette) (now : String) (e : Entry) : String :=
  let tag := palette.paint e.level.ink ("[" ++ Text.padEnd 5 e.level.label ++ "]")
  let line := now ++ " " ++ tag ++ " " ++ e.message
  if e.data.isEmpty then line else line ++ " " ++ (Json.object e.data).compact

/-- The lines of the entries that pass a threshold. -/
def written (threshold : Threshold) (palette : Text.Palette) (now : String)
    (entries : List Entry) : List String :=
  (entries.filter fun e => threshold.passes e.level).map (Entry.line palette now)

end SchemaHistory.Log
