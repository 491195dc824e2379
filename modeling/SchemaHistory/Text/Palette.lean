namespace SchemaHistory.Text

/-- Whether terminal text carries colour codes. -/
inductive Palette where
  | plain
  | coloured
deriving DecidableEq, Repr

inductive Ink where
  | red
  | green
  | yellow
  | cyan
  | gray
  | bold
deriving DecidableEq, Repr

namespace Ink

def code (number : String) : List Char :=
  '\x1b' :: '[' :: (number.toList ++ ['m'])

/-- The code that switches an ink on. -/
def start : Ink → List Char
  | red => code "31"
  | green => code "32"
  | yellow => code "33"
  | cyan => code "36"
  | gray => code "90"
  | bold => code "1"

/-- The code that switches an ink off. All colours share one. -/
def stop : Ink → List Char
  | bold => code "22"
  | _ => code "39"

/-- Switches the ink on again wherever the text inside has switched it off. `seen` is the text
already passed, last character first. -/
def resume (ink : Ink) : (seen : List Char) → List Char → List Char
  | _, [] => []
  | seen, c :: rest =>
    if ink.stop.reverse.isPrefixOf (c :: seen) then
      c :: (ink.start ++ resume ink (c :: seen) rest)
    else
      c :: resume ink (c :: seen) rest

/-- Keeps the ink off line ends. -/
def aroundLineEnds (ink : Ink) : List Char → List Char
  | [] => []
  | '\r' :: '\n' :: rest => ink.stop ++ '\r' :: '\n' :: (ink.start ++ aroundLineEnds ink rest)
  | '\n' :: rest => ink.stop ++ '\n' :: (ink.start ++ aroundLineEnds ink rest)
  | c :: rest => c :: aroundLineEnds ink rest

end Ink

namespace Palette

/-- Writes a text in one ink. An empty text stays empty. -/
def paint (palette : Palette) (ink : Ink) (text : String) : String :=
  match palette with
  | plain => text
  | coloured =>
    if text.isEmpty then ""
    else
      String.ofList
        (ink.start ++ (ink.aroundLineEnds (ink.resume [] text.toList) ++ ink.stop))

end Palette

end SchemaHistory.Text
