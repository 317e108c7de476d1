import WeightedCsp.Domain

/-!
# Decision variables

A variable is an identifier with a domain.  Identifiers are shared with constraints: an ASCII
letter, then ASCII letters, digits and underscores.
-/

namespace WeightedCsp

namespace Identifier

/-- The character is an ASCII letter. -/
def isLetter (c : Char) : Bool := ('a' ≤ c && c ≤ 'z') || ('A' ≤ c && c ≤ 'Z')

/-- The character is an ASCII letter or digit, or an underscore. -/
def isWordChar (c : Char) : Bool := isLetter c || ('0' ≤ c && c ≤ '9') || c == '_'

/-- The characters are a letter followed by word characters. -/
def isValidList : List Char → Bool
  | [] => false
  | c :: cs => isLetter c && cs.all isWordChar

/-- The name is an identifier. -/
def isValid (name : String) : Bool := isValidList name.toList

/-- Refuses a name that is no identifier. -/
def check (name : String) : Except ModelError Unit :=
  if isValid name then .ok () else .error (.invalidName name)

end Identifier

/-- A named decision variable over a finite domain. -/
structure Variable where
  /-- The name, by which a model knows the variable. -/
  name : String
  /-- The values the variable can take. -/
  domain : Domain
deriving DecidableEq

namespace Variable

/-- The variable of that name and domain, if the name is an identifier. -/
def new (name : String) (domain : Domain) : Except ModelError Variable := do
  Identifier.check name
  return ⟨name, domain⟩

/-- The variable with its domain, as in `x in` followed by the set. -/
def text (v : Variable) : String := v.name ++ " in " ++ v.domain.text

end Variable

end WeightedCsp
