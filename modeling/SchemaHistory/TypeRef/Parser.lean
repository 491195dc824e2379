import SchemaHistory.Failure
import SchemaHistory.Text.Blank
import SchemaHistory.TypeRef.Basic

namespace SchemaHistory

def isNameStart (c : Char) : Bool :=
  c == '_' || c.isAlpha

def isNameChar (c : Char) : Bool :=
  isNameStart c || c.isDigit

/-- Names are letters, digits and underscores, all of ASCII; the first is no digit. -/
def isName : List Char → Bool
  | [] => false
  | c :: cs => isNameStart c && cs.all isNameChar

namespace TypeRef

/-- Takes wrappers off a text, outermost first. The text is the first `count` characters of `front`,
and the same characters in reverse order are the first of `back`. Returns the wrappers, innermost
first, and what is left. -/
def peel (outer : List Wrapper) (front : List Char) (count : Nat) :
    (back : List Char) → List Wrapper × List Char
  | [] => (outer, front.take count)
  | last :: back =>
    if count = 0 then (outer, [])
    else if last = '!' then peel (.nonNull :: outer) front (count - 1) back
    else
      match front with
      | '[' :: front' =>
        if last = ']' then peel (.list :: outer) front' (count - 2) back
        else (outer, front.take count)
      | _ => (outer, front.take count)

def read (text : String) : Except RefFault TypeRef :=
  let cs := Text.trimChars text.toList
  let (wrappers, name) := peel [] cs cs.length cs.reverse
  if isName name then
    wrappers.foldlM (fun t w => wrap? .doubledMark w t) (named (String.ofList name))
  else .error (.invalidName (String.ofList name))

/-- Reads a type reference from its text. Blanks around it do not count. -/
def parse (text : String) : Except Failure TypeRef :=
  (read text).mapError fun fault => .malformedTypeRef text fault.message

end TypeRef

end SchemaHistory
