import SchemaHistory.Binary64.Shortest
import SchemaHistory.Json.Basic

namespace SchemaHistory

/-- What reports hold as counts: whole numbers where the library has counted, any numbers where a
report comes from elsewhere. -/
class Figure (ν : Type) where
  ofCount : Nat → ν
  number : ν → Binary64

namespace Figure

instance : Figure Nat := ⟨id, Binary64.ofNat⟩

instance : Figure Binary64 := ⟨Binary64.ofNat, id⟩

@[simp] theorem ofCount_nat (n : Nat) : (ofCount n : Nat) = n := rfl

def text {ν : Type} [Figure ν] (x : ν) : String :=
  (number x).text

def toJson {ν : Type} [Figure ν] (x : ν) : Json :=
  .number (number x)

end Figure

end SchemaHistory
