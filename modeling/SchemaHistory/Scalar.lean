namespace SchemaHistory.Scalar

def builtIn : List String :=
  ["String", "Int", "Float", "Boolean", "ID"]

/-- Scalars that many schemas define and that are leaves unless the user says otherwise. -/
def customDefault : List String :=
  ["DateTime", "Date", "Time", "JSON", "Upload", "Long", "Decimal"]

def isBuiltIn (name : String) : Bool :=
  builtIn.contains name

/-- Whether a type is a plain value, so that nothing is found inside it. -/
def isLeaf (custom : List String) (name : String) : Bool :=
  isBuiltIn name || custom.contains name

end SchemaHistory.Scalar
