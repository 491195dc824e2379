import SchemaHistory.Json.Basic

namespace SchemaHistory.Validation

/-- One step from a value to a value inside it. -/
inductive Step where
  | key (name : String)
  | index (n : Nat)
deriving DecidableEq

namespace Step

def text : Step → String
  | key name => name
  | index n => toString n

def toJson : Step → Json
  | key name => .string name
  | index n => .natural n

end Step

/-- What is wrong with a value. -/
inductive Problem where
  | missing (expected : String)
  | wrongType (expected received : String)
  | notTypeRef
  | notInteger
  | notPositive
  | empty
  | unknownOption (options : List String) (received : String)
  | wrongTypeForOption (options : List String) (received : String)
  | unknownKeys (names : List String)
deriving DecidableEq

namespace Problem

def quoted (name : String) : String :=
  "'" ++ name ++ "'"

def choice (options : List String) : String :=
  String.intercalate " | " (options.map quoted)

def message : Problem → String
  | missing _ => "Required"
  | wrongType expected received => s!"Expected {expected}, received {received}"
  | notTypeRef => "Expected a type reference (\x7b kind, name, ofType \x7d)"
  | notInteger => "Expected integer, received float"
  | notPositive => "Number must be greater than 0"
  | empty => "String must contain at least 1 character(s)"
  | unknownOption options received =>
    s!"Invalid enum value. Expected {choice options}, received '" ++ received ++ "'"
  | wrongTypeForOption options received => s!"Expected {choice options}, received {received}"
  | unknownKeys names =>
    "Unrecognized key(s) in object: " ++ String.intercalate ", " (names.map quoted)

end Problem

/-- A problem and where it is. -/
structure Issue where
  path : List Step
  problem : Problem
deriving DecidableEq

namespace Issue

def pathText (issue : Issue) : String :=
  match issue.path with
  | [] => "(root)"
  | path => String.intercalate "." (path.map Step.text)

/-- An issue on one line. -/
def line (issue : Issue) : String :=
  issue.pathText ++ ": " ++ issue.problem.message

/-- An issue as a JSON object. The order of its members depends on the problem. -/
def toJson (issue : Issue) : Json :=
  let path := ("path", Json.array (issue.path.map Step.toJson))
  let message := ("message", Json.string issue.problem.message)
  let code (name : String) := ("code", Json.string name)
  let wrongType (expected received : String) :=
    [code "invalid_type", ("expected", .string expected), ("received", .string received)]
  .object <| match issue.problem with
    | .missing expected => wrongType expected "undefined" ++ [path, message]
    | .wrongType expected received => wrongType expected received ++ [path, message]
    | .notTypeRef => [code "custom", message, ("fatal", .bool true), path]
    | .notInteger => wrongType "integer" "float" ++ [message, path]
    | .notPositive =>
      [code "too_small", ("minimum", .natural 0), ("type", .string "number"),
        ("inclusive", .bool false), ("exact", .bool false), message, path]
    | .empty =>
      [code "too_small", ("minimum", .natural 1), ("type", .string "string"),
        ("inclusive", .bool true), ("exact", .bool false), message, path]
    | .unknownOption options received =>
      [("received", .string received), code "invalid_enum_value", ("options", .strings options),
        path, message]
    | .wrongTypeForOption options received =>
      [("expected", .string (Problem.choice options)), ("received", .string received),
        code "invalid_type", path, message]
    | .unknownKeys names => [code "unrecognized_keys", ("keys", .strings names), path, message]

end Issue

end SchemaHistory.Validation
