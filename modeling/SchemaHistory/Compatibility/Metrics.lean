import SchemaHistory.Change.Detect
import SchemaHistory.Compatibility.Figure
import SchemaHistory.Compatibility.Score
import SchemaHistory.Failure

namespace SchemaHistory

/-- The changes of one step from a version to the next, in numbers. -/
structure Metrics (ν : Type) where
  /-- The position of the newer version in the sequence, from zero. -/
  index : ν
  breaking : ν
  nonBreaking : ν
  total : ν
  score : Binary64

def Metrics.ofChanges {ν : Type} [Figure ν] (index : ν) (changes : List Change) : Metrics ν where
  index := index
  breaking := Figure.ofCount (Change.countBreaking changes)
  nonBreaking := Figure.ofCount (changes.length - Change.countBreaking changes)
  total := Figure.ofCount changes.length
  score := Change.score changes

namespace Model

/-- The metrics of each step of a sequence. The first step leads to position `index`. -/
def stepsFrom (policy : Policy) (index : Nat) : List Model → List (Metrics Nat)
  | before :: after :: models =>
    Metrics.ofChanges index (changes policy before after)
      :: stepsFrom policy (index + 1) (after :: models)
  | _ => []

/-- The metrics of a sequence of at least two versions. -/
def steps (policy : Policy) (models : List Model) : Except Failure (List (Metrics Nat)) :=
  if models.length < 2 then .error (.insufficientSnapshots (.ofNat models.length))
  else .ok (stepsFrom policy 1 models)

end Model

inductive Trend where
  | improving
  | declining
  | stable
deriving DecidableEq

namespace Trend

def all : List Trend :=
  [improving, declining, stable]

def text : Trend → String
  | improving => "improving"
  | declining => "declining"
  | stable => "stable"

/-- The text of a trend at the start of a line. -/
def title : Trend → String
  | improving => "Improving"
  | declining => "Declining"
  | stable => "Stable"

def ofText? (text : String) : Option Trend :=
  all.find? fun t => t.text = text

def ofDelta (delta : Binary64) : Trend :=
  if 0 < delta then improving else if delta < 0 then declining else stable

end Trend

/-- A whole sequence of steps in numbers. -/
structure Summary (ν : Type) where
  transitions : ν
  averageBreaking : Binary64
  averageScore : Binary64
  trend : Trend
  /-- The last score less the first. -/
  trendDelta : Binary64

def Summary.ofMetrics {ν : Type} [Figure ν] (metrics : List (Metrics ν)) : Summary ν :=
  match metrics with
  | [] => ⟨Figure.ofCount 0, 0, 1, .stable, 0⟩
  | first :: rest =>
    let average (value : Metrics ν → Binary64) :=
      metrics.foldl (fun sum m => sum + value m) 0 / .ofNat metrics.length
    let delta := ((first :: rest).getLastD first).score - first.score
    ⟨Figure.ofCount metrics.length, average fun m => Figure.number m.breaking,
      average Metrics.score, .ofDelta delta, delta⟩

def Metrics.toJson {ν : Type} [Figure ν] (m : Metrics ν) : Json :=
  .object [("index", Figure.toJson m.index), ("breakingCount", Figure.toJson m.breaking),
    ("nonBreakingCount", Figure.toJson m.nonBreaking), ("totalCount", Figure.toJson m.total),
    ("score", .number m.score)]

def Summary.toJson {ν : Type} [Figure ν] (s : Summary ν) : Json :=
  .object [("transitions", Figure.toJson s.transitions),
    ("averageBreakingChanges", .number s.averageBreaking),
    ("averageScore", .number s.averageScore), ("trend", .string s.trend.text),
    ("trendDelta", .number s.trendDelta)]

end SchemaHistory
