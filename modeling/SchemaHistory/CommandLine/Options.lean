import SchemaHistory.Binary64.Decimal

namespace SchemaHistory.CommandLine

/-- What the value of an option has to be. -/
inductive ValueRule where
  | any
  | version
  /-- Any values, up to the next option. -/
  | many
deriving DecidableEq

/-- An option that a command knows. Short names belong to options with a value. -/
inductive OptionSpec where
  | switch (long : String)
  | showVersion (short : Char) (long : String)
  | valued (short : Option Char) (long placeholder : String) (rule : ValueRule)
    (isRequired : Bool)
deriving DecidableEq

/-- Why the words of a command line are not carried out. -/
inductive Stop where
  | versionAsked
  | invalidVersion (option value : String)
  | missingValue (option : String)
  | missingOption (option : String)
  | unknownOption (word : String) (similar : List String)
  | unknownCommand (word : String) (similar : List String)
  | noCommand
deriving DecidableEq

namespace OptionSpec

def long : OptionSpec → String
  | switch long => long
  | showVersion _ long => long
  | valued _ long _ _ _ => long

def short : OptionSpec → Option Char
  | switch _ => none
  | showVersion short _ => some short
  | valued short _ _ _ _ => short

/-- Whether a word is the name of the option. -/
def matches? (spec : OptionSpec) (word : List Char) : Bool :=
  match word with
  | ['-', c] => spec.short = some c
  | '-' :: '-' :: cs => spec.long.toList = cs
  | _ => false

/-- The option as messages show it. -/
def title : OptionSpec → String
  | switch long => "--" ++ long
  | showVersion short long => String.ofList ['-', short] ++ ", --" ++ long
  | valued none long placeholder _ _ => "--" ++ long ++ " " ++ placeholder
  | valued (some short) long placeholder _ _ =>
    String.ofList ['-', short] ++ ", --" ++ long ++ " " ++ placeholder

def takesMany : OptionSpec → Bool
  | valued _ _ _ .many _ => true
  | _ => false

def isRequired : OptionSpec → Bool
  | valued _ _ _ _ isRequired => isRequired
  | _ => false

/-- A number that counts versions. -/
def version? (text : String) : Option Binary64 :=
  let x := Binary64.ofText text
  if x.isInteger ∧ 1 ≤ x then some x else none

def checkValue (spec : OptionSpec) (value : String) : Except Stop Unit :=
  match spec with
  | valued _ _ _ .version _ =>
    if (version? value).isSome then .ok () else .error (.invalidVersion spec.title value)
  | _ => .ok ()

end OptionSpec

/-- The words of a command line, sorted. Each list has its last word first. -/
structure Words where
  /-- Long names of options with their values; a switch has an empty one. -/
  given : List (String × String)
  operands : List String
  /-- The first word that looks like an option and is none, and the words after it. -/
  unknown : List String

namespace Words

def empty : Words := ⟨[], [], []⟩

def give (w : Words) (spec : OptionSpec) (value : String) : Words :=
  { w with given := (spec.long, value) :: w.given }

/-- Sets a word aside that is not used here. -/
def push (w : Words) (isOption : Bool) (word : String) : Words :=
  if isOption || !w.unknown.isEmpty then { w with unknown := word :: w.unknown }
  else { w with operands := word :: w.operands }

/-- Two dashes end the options. They stay among unknown words, for who reads those. -/
def endOptions (w : Words) (rest : List String) : Words :=
  if w.unknown.isEmpty then { w with operands := rest.reverse ++ w.operands }
  else { w with unknown := rest.reverse ++ "--" :: w.unknown }

/-- The last value of an option. -/
def value? (w : Words) (long : String) : Option String :=
  w.given.lookup long

/-- All values of an option, in order. -/
def values (w : Words) (long : String) : List String :=
  (w.given.filter fun g => g.1 = long).reverse.map Prod.snd

def has (w : Words) (long : String) : Bool :=
  (w.value? long).isSome

end Words

def looksLikeOption (word : List Char) : Bool :=
  match word with
  | '-' :: _ :: _ => true
  | _ => false

/-- Takes a word apart that holds an option and its value: a short name with the value right after
it, or a long name, an equals sign and the value. -/
def attached? (specs : List OptionSpec) (word : List Char) : Option (OptionSpec × String) :=
  match word with
  | '-' :: '-' :: cs =>
    match cs.dropWhile (· != '=') with
    | '=' :: value =>
      (specs.find? fun s => match s with
        | .valued _ long _ _ _ => long.toList = cs.takeWhile (· != '=') ∧ cs.head? ≠ some '='
        | _ => false).map (·, String.ofList value)
    | _ => none
  | '-' :: c :: value =>
    if value.isEmpty then none
    else (specs.find? fun s => s.short = some c).map (·, String.ofList value)
  | _ => none

/-- Sorts words by the options that are known. `active` is an option that takes further values. -/
def sortWords (specs : List OptionSpec) (active : Option OptionSpec) (w : Words) :
    List String → Except Stop Words
  | [] => .ok w
  | word :: words =>
    let cs := word.toList
    let isOption := looksLikeOption cs
    if word = "--" then .ok (w.endOptions words)
    else
      match (if isOption then none else active) with
      | some spec => sortWords specs (some spec) (w.give spec word) words
      | none =>
        match (if isOption then specs.find? fun s => s.matches? cs else none) with
        | some (.showVersion _ _) => .error .versionAsked
        | some (.switch long) => sortWords specs none (w.give (.switch long) "") words
        | some spec =>
          match words with
          | [] => .error (.missingValue spec.title)
          | value :: words =>
            match spec.checkValue value with
            | .error stop => .error stop
            | .ok () =>
              sortWords specs (if spec.takesMany then some spec else none) (w.give spec value)
                words
        | none =>
          match attached? specs cs with
          | some (.showVersion _ _, _) => .error .versionAsked
          | some (spec, value) =>
            match spec.checkValue value with
            | .error stop => .error stop
            | .ok () => sortWords specs none (w.give spec value) words
          | none => sortWords specs none (w.push isOption word) words

end SchemaHistory.CommandLine
