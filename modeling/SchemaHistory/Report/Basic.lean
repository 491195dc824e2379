import SchemaHistory.Compatibility.Metrics

namespace SchemaHistory

/-- How many changes a report lists, by what they do and by severity. -/
structure Report.Counts (ν : Type) where
  breaking : ν
  nonBreaking : ν
  critical : ν
  major : ν
  minor : ν
  total : ν
deriving DecidableEq

/-- What a comparison of two versions found. The score and the suggestions are about all changes,
the list and the counts about those of the requested severity. -/
structure Report (ν : Type) where
  key : String
  timestamp : String
  previousVersion : Binary64
  currentVersion : Binary64
  changes : List Change
  counts : Report.Counts ν
  score : Binary64
  rating : Rating
  hasBreakingChanges : Bool
  suggestions : List String
deriving DecidableEq

namespace Report

def Counts.ofChanges (changes : List Change) : Counts Nat :=
  let count (s : Severity) := (changes.filter fun c => c.severity = s).length
  let breaking := Change.countBreaking changes
  ⟨breaking, changes.length - breaking, count .critical, count .major, count .minor,
    changes.length⟩

def ofChanges (key timestamp : String) (previousVersion currentVersion : Binary64)
    (least : Severity) (all : List Change) : Report Nat :=
  let listed := Change.atLeast least all
  let score := Change.score all
  ⟨key, timestamp, previousVersion, currentVersion, listed, .ofChanges listed, score,
    .ofScore score, all.any Change.isBreaking, Change.suggestions all⟩

def Counts.toJson {ν : Type} [Figure ν] (c : Counts ν) : Json :=
  .object [("breaking", Figure.toJson c.breaking), ("nonBreaking", Figure.toJson c.nonBreaking),
    ("critical", Figure.toJson c.critical), ("major", Figure.toJson c.major),
    ("minor", Figure.toJson c.minor), ("total", Figure.toJson c.total)]

def toJson {ν : Type} [Figure ν] (layout : Change.Layout) (r : Report ν) : Json :=
  .object [("key", .string r.key), ("timestamp", .string r.timestamp),
    ("previousVersion", .number r.previousVersion), ("currentVersion", .number r.currentVersion),
    ("changes", .array (r.changes.map (Change.toJson layout))), ("summary", r.counts.toJson),
    ("compatibilityScore", .number r.score), ("rating", .string r.rating.text),
    ("hasBreakingChanges", .bool r.hasBreakingChanges), ("suggestions", .strings r.suggestions)]

end Report

/-- The steps of a whole history. -/
structure Track (ν : Type) where
  key : String
  /-- The number of each version, in order. -/
  versions : List Binary64
  metrics : List (Metrics ν)
  summary : Summary ν

def Track.toJson {ν : Type} [Figure ν] (t : Track ν) : Json :=
  .object [("key", .string t.key), ("versions", .array (t.versions.map .number)),
    ("metrics", .array (t.metrics.map Metrics.toJson)), ("summary", t.summary.toJson)]

end SchemaHistory
