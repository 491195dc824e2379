import SchemaHistory.Binary64.Places
import SchemaHistory.Report.Basic
import SchemaHistory.Text.Palette
import SchemaHistory.Text.Units

namespace SchemaHistory

inductive Format where
  | console
  | json
  | markdown
deriving DecidableEq

namespace Format

def all : List Format :=
  [console, json, markdown]

def text : Format → String
  | console => "console"
  | json => "json"
  | markdown => "markdown"

def ofText? (text : String) : Option Format :=
  all.find? fun f => f.text = text

def named (name : String) : Except Failure Format :=
  match ofText? name with
  | some format => .ok format
  | none => .error (.unknownFormat name)

end Format

namespace Severity

def icon : Severity → String
  | critical => "🔴"
  | major => "🟡"
  | minor => "🟢"

def label : Severity → String
  | critical => "CRITICAL"
  | major => "MAJOR"
  | minor => "MINOR"

def title : Severity → String
  | critical => "Critical"
  | major => "Major"
  | minor => "Minor"

def ink : Severity → Text.Ink
  | critical => .red
  | major => .yellow
  | minor => .green

end Severity

/-- A score as a percentage, in the ink of its range. -/
def paintScore (palette : Text.Palette) (score : Binary64) : String :=
  let ink : Text.Ink := if Rating.excellentFrom ≤ score then .green
    else if Rating.goodFrom ≤ score then .yellow else .red
  palette.paint ink score.percentText

def lines (texts : List String) : String :=
  String.intercalate "\n" texts

def bar : String :=
  String.ofList (List.replicate 50 '━')

namespace Report

open Text

/-- The most severe first; changes of one severity keep their order. -/
def bySeverity (changes : List Change) : List Change :=
  changes.mergeSort fun c d => d.severity ≤ c.severity

def changeLines (palette : Palette) (c : Change) : List String :=
  let label := palette.paint c.severity.ink (padEnd 8 c.severity.label)
  let line := c.severity.icon ++ " " ++ label ++ " " ++ c.description
  match c.impact with
  | none | some "" => [line]
  | some impact =>
    if c.isBreaking then [line, palette.paint .gray ("            " ++ impact)] else [line]

def console {ν : Type} [Figure ν] (palette : Palette) (r : Report ν) : String :=
  let changes := if r.changes.isEmpty then
      [palette.paint .green "  ✅ No schema changes detected"]
    else (bySeverity r.changes).flatMap (changeLines palette)
  let breaking := palette.paint .red s!"{Figure.text r.counts.breaking} breaking"
  let nonBreaking := palette.paint .green s!"{Figure.text r.counts.nonBreaking} non-breaking"
  lines (["", palette.paint .bold ("🔍 Schema Evolution Report: " ++ r.key),
      palette.paint .gray bar]
    ++ changes
    ++ [palette.paint .gray bar, s!"Summary: {breaking} | {nonBreaking}",
      s!"Compatibility Score: {paintScore palette r.score} ({r.rating.message})", ""])

def titledLine (c : Change) : String :=
  s!"- **{c.severity.title}**: {c.description}"

def note (name : String) (text : Option String) : List String :=
  match text with
  | none | some "" => []
  | some text => [s!"  - *{name}:* {text}"]

/-- A section with a heading, or nothing where it has no lines. -/
def part (heading : String) (body : List String) : List String :=
  if body.isEmpty then [] else heading :: body ++ [""]

def markdown {ν : Type} [Figure ν] (r : Report ν) : String :=
  let breaking := r.changes.filter fun c => c.isBreaking
  let nonBreaking := r.changes.filter fun c => !c.isBreaking
  lines ([s!"# Schema Evolution Analysis: {r.key}", "",
      s!"**Timestamp:** {r.timestamp}",
      s!"**Version:** v{r.previousVersion.text} → v{r.currentVersion.text}", "",
      "## Change Summary",
      s!"- **Total Changes:** {Figure.text r.counts.total}",
      s!"- **Breaking Changes:** {Figure.text r.counts.breaking}",
      s!"- **Non-Breaking Changes:** {Figure.text r.counts.nonBreaking}", ""]
    ++ part "## ⚠️ Breaking Changes" (breaking.flatMap fun c =>
      titledLine c :: note "Impact" c.impact ++ note "Recommendation" c.recommendation)
    ++ part "## ✅ Non-Breaking Changes" (nonBreaking.map titledLine)
    ++ part "## Migration Suggestions" (r.suggestions.map ("- " ++ ·))
    ++ [s!"## Compatibility Score: {r.score.percentText}", r.rating.message])

def render {ν : Type} [Figure ν] (palette : Palette) (layout : Change.Layout) (format : Format)
    (r : Report ν) : String :=
  match format with
  | .console => r.console palette
  | .json => (r.toJson layout).pretty
  | .markdown => r.markdown

end Report

namespace Track

open Text

variable {ν : Type} [Figure ν]

/-- The version at a position, if there is one. -/
def version? (t : Track ν) (position : Binary64) : Option Binary64 :=
  match position.toInt? with
  | some (.ofNat i) => t.versions[i]?
  | _ => none

def versionText (t : Track ν) (position : Binary64) : String :=
  match t.version? position with
  | some version => "v" ++ version.text
  | none => "vundefined"

/-- The step that leads to a position. -/
def stepText (t : Track ν) (position : Binary64) : String :=
  t.versionText (position - 1) ++ " → " ++ t.versionText position

/-- A difference of scores in percent, with its sign. -/
def deltaText (delta : Binary64) : String :=
  if delta = 0 then "0%"
  else (if 0 < delta then "+" else "") ++ (delta * 100).onePlaceText ++ "%"

def metricsLine (palette : Palette) (t : Track ν) (m : Metrics ν) : String :=
  let breaking := palette.paint .red s!"{Figure.text m.breaking} breaking"
  let nonBreaking := palette.paint .green s!"{Figure.text m.nonBreaking} non-breaking"
  let step := padEnd 14 (t.stepText (Figure.number m.index))
  s!"  {step} {breaking} | {nonBreaking} | {paintScore palette m.score}"

def console (palette : Palette) (t : Track ν) : String :=
  let s := t.summary
  lines (["", palette.paint .bold ("📈 Schema Evolution: " ++ t.key), palette.paint .gray bar]
    ++ t.metrics.map (t.metricsLine palette)
    ++ [palette.paint .gray bar,
      s!"Average Breaking Changes: {s.averageBreaking.onePlaceText}",
      s!"Average Compatibility: {paintScore palette s.averageScore}",
      s!"Trend: {s.trend.text} ({deltaText s.trendDelta})", ""])

def metricsRow (t : Track ν) (m : Metrics ν) : String :=
  let step := t.stepText (Figure.number m.index)
  s!"| {step} | {Figure.text m.breaking} | {Figure.text m.nonBreaking} | {m.score.percentText} |"

def markdown (t : Track ν) : String :=
  let s := t.summary
  lines ([s!"# Schema Evolution Tracking: {t.key}", "", "## Evolution Metrics",
      "| Version | Breaking Changes | Non-Breaking | Compatibility Score |",
      "|---------|------------------|--------------|---------------------|"]
    ++ t.metrics.map t.metricsRow
    ++ ["", "## Trends Analysis",
      s!"- **Average Breaking Changes per Version:** {s.averageBreaking.onePlaceText}",
      s!"- **Average Compatibility Score:** {s.averageScore.percentText}"]
    ++ if 1 < Figure.number s.transitions then
        [s!"- **Compatibility Trend:** {s.trend.title} ({deltaText s.trendDelta})"]
      else [])

def render (palette : Palette) (format : Format) (t : Track ν) : String :=
  match format with
  | .console => t.console palette
  | .json => t.toJson.pretty
  | .markdown => t.markdown

end Track

end SchemaHistory
