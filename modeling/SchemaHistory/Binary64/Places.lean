import SchemaHistory.Binary64.Shortest

namespace SchemaHistory.Binary64

/-- A number with one digit after the point. An exact half goes away from zero, and a negative
number keeps its sign when it rounds to zero. Numbers from 10^21 on are written in full. -/
def onePlaceText (x : Binary64) : String :=
  match x with
  | finite u _ =>
    if u.natAbs < Nat.pow 10 21 * one then
      let tenths := (20 * u.natAbs + one) / (2 * one)
      let body := s!"{tenths / 10}.{tenths % 10}"
      if u < 0 then "-" ++ body else body
    else x.text
  | _ => x.text

/-- A share of one as a whole percentage. -/
def percentText (x : Binary64) : String :=
  (x * 100).roundHalfUp.text ++ "%"

end SchemaHistory.Binary64
