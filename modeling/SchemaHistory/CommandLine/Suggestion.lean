import SchemaHistory.Text.Units

namespace SchemaHistory.CommandLine.Suggestion

/-- Whether at most `budget` slips lead from one word to another: a letter left out, put in,
replaced, or swapped with the next one. -/
def within (budget : Nat) : List Nat → List Nat → Bool
  | [], b => b.length ≤ budget
  | a, [] => a.length ≤ budget
  | x :: a, y :: b =>
    (x = y && within budget a b)
      || match budget with
        | 0 => false
        | k + 1 =>
          within k a b || within k (x :: a) b || within k a (y :: b)
            || match a, b with
              | x' :: a', y' :: b' => x = y' && x' = y && within k a' b'
              | _, _ => false
termination_by a b => a.length + b.length

/-- The slips between two words, if they are few. -/
def slips? (a b : List Nat) : Option Nat :=
  (List.range 4).find? fun n => within n a b

/-- A name of at least two letters, with its slips, if more than two fifths of the longer word are
right. -/
def candidate? (word : List Nat) (name : String) : Option (Nat × String) :=
  let letters := Text.units name
  let length := max word.length letters.length
  if letters.length ≤ 1 then none
  else
    match slips? word letters with
    | some n => if 2 * length < 5 * (length - n) then some (n, name) else none
    | none => none

/-- The names with the fewest slips, in alphabetical order. -/
def nearest (word : String) (names : List String) : List String :=
  let candidates := names.eraseDups.filterMap (candidate? (Text.units word))
  match (candidates.map Prod.fst).min? with
  | some fewest =>
    Text.sortByUnits ((candidates.filter fun c => c.1 = fewest).map Prod.snd)
  | none => []

def withoutMark (word : String) : String :=
  String.ofList (word.toList.drop 2)

/-- Which names a word may have meant. The two dashes of a long option do not count as letters. -/
def similar (word : String) (names : List String) : List String :=
  if "--".toList.isPrefixOf word.toList then
    (nearest (withoutMark word) (names.map withoutMark)).map ("--" ++ ·)
  else nearest word names

/-- A question to the user on a line of its own, if there is something to ask. -/
def question : List String → String
  | [] => ""
  | [name] => s!"\n(Did you mean {name}?)"
  | names => "\n(Did you mean one of " ++ String.intercalate ", " names ++ "?)"

end SchemaHistory.CommandLine.Suggestion
