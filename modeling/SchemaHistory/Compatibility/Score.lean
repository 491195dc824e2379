import SchemaHistory.Binary64.Decimal
import SchemaHistory.Change.Basic

namespace SchemaHistory

inductive Rating where
  | excellent
  | good
  | moderate
  | poor
deriving DecidableEq

namespace Rating

def all : List Rating :=
  [excellent, good, moderate, poor]

def text : Rating → String
  | excellent => "excellent"
  | good => "good"
  | moderate => "moderate"
  | poor => "poor"

def ofText? (text : String) : Option Rating :=
  all.find? fun r => r.text = text

def message : Rating → String
  | excellent => "Excellent compatibility - minimal client impact expected"
  | good => "Good compatibility - some client updates may be needed"
  | moderate => "Moderate compatibility - significant client updates required"
  | poor => "Poor compatibility - major breaking changes detected"

/-- The least score of an excellent rating. -/
def excellentFrom : Binary64 := .ofDecimal false 9 (-1)

def goodFrom : Binary64 := .ofDecimal false 7 (-1)

def moderateFrom : Binary64 := .ofDecimal false 5 (-1)

def ofScore (score : Binary64) : Rating :=
  if excellentFrom ≤ score then excellent
  else if goodFrom ≤ score then good
  else if moderateFrom ≤ score then moderate
  else poor

end Rating

namespace Change

def countBreaking (changes : List Change) : Nat :=
  (changes.filter Change.isBreaking).length

/-- The share of changes that break no client; one if there are no changes. -/
def score (changes : List Change) : Binary64 :=
  if changes.isEmpty then 1
  else 1 - .ofNat (countBreaking changes) / .ofNat changes.length

/-- Advice for the owner of the schema, one line for each kind of trouble. -/
def suggestions (changes : List Change) : List String :=
  let when (trouble : Change → Bool) (advice : String) :=
    if changes.any trouble then [advice] else []
  when (fun c => c.kind = .fieldRemoved)
      "Consider using field deprecation before removal to give clients time to adapt"
    ++ when (fun c => c.kind = .typeRemoved)
      "Ensure all client applications are updated before removing types"
    ++ when (fun c => c.kind = .enumValueRemoved)
      "Deprecate enum values and wait for clients to stop sending them before removal"
    ++ when (fun c => c.kind = .fieldTypeChanged && c.isBreaking)
      "For breaking type changes, consider adding new fields alongside old ones temporarily"

end Change

end SchemaHistory
