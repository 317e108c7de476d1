/-!
# Errors of building and evaluating a model
-/

namespace WeightedCsp

/-- Why a part of a model cannot be built, registered or evaluated. -/
inductive ModelError where
  /-- A name is not a letter followed by letters, digits and underscores. -/
  | invalidName (name : String)
  /-- A domain has no value. -/
  | emptyDomain
  /-- The name of a variable is taken. -/
  | duplicateVariable (name : String)
  /-- The name of a constraint is taken. -/
  | duplicateConstraint (name : String)
  /-- A constraint speaks of a variable that is not registered with that domain. -/
  | undeclaredVariable (constraint var : String)
  /-- A constant lies outside the domain of its variable. -/
  | valueNotInDomain (var : String) (value : Int)
  /-- The variables of an all-different constraint have different domains. -/
  | domainMismatch (constraint : String)
  /-- A comparison was left without its comparator. -/
  | incompleteConstraint (constraint : String)
  /-- The arithmetic of a constraint leaves the machine range. -/
  | overflow (constraint : String)
  /-- An assignment has no value for a variable. -/
  | unassigned (var : String)
deriving DecidableEq, Repr

/-- The wording of a model error. -/
def ModelError.message : ModelError → String
  | .invalidName name => s!"invalid identifier `{name}`"
  | .emptyDomain => "a domain needs at least one value"
  | .duplicateVariable name => s!"variable `{name}` is already declared"
  | .duplicateConstraint name => s!"constraint `{name}` is already declared"
  | .undeclaredVariable constraint var =>
    s!"constraint `{constraint}` references undeclared variable `{var}`"
  | .valueNotInDomain var value =>
    "value " ++ value.repr ++ s!" is not in the domain of `{var}`"
  | .domainMismatch constraint =>
    s!"all-different constraint `{constraint}` mixes different domains"
  | .incompleteConstraint constraint => s!"constraint `{constraint}` has no comparator"
  | .overflow constraint => s!"arithmetic of constraint `{constraint}` overflows"
  | .unassigned var => s!"no value for variable `{var}`"

end WeightedCsp
