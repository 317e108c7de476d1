import WeightedCsp.Instance.Basic

/-!
# The written form of an instance

A line for each variable with its labels in braces, then a line or more for each constraint.  The
terms of a linear constraint stand five to an indented line.
-/

namespace WeightedCsp.Instance

/-- The price: `inf` for a hard constraint. -/
def Price.text : Price → String
  | .hard => "inf"
  | .soft w => w.repr

/-- The line of a variable. -/
def Var.text (x : Var) : String :=
  "variable " ++ x.name ++ " in \x7b" ++ ", ".intercalate x.labels ++ "\x7d\n"

/-- A term. -/
def Term.text (t : Term) : String := t.coeff.repr ++ "(" ++ t.var ++ ", " ++ t.label ++ ")"

/-- The terms with a line break before the first and every fifth after it; `place` counts the
terms since the last break. -/
def termTokens : Nat → List Term → List String
  | _, [] => []
  | 0, t :: rest => "\n    " :: t.text :: termTokens 4 rest
  | place + 1, t :: rest => t.text :: termTokens place rest

/-- The lines of a constraint. -/
def Con.text (c : Con) : String :=
  c.name ++ ": weight = " ++ c.weight.text ++
    match c.demand with
    | .linear terms rel rhs =>
      " type = linear " ++ " ".intercalate (termTokens 0 terms) ++ " " ++ rel.text ++ " " ++
        rhs.repr ++ "\n"
    | .allDifferent vars => " type = alldiff " ++ " ".intercalate vars ++ " ;\n"

/-- The lines of an instance. -/
def text (i : Instance) : String :=
  String.join (i.vars.map Var.text) ++ String.join (i.constraints.map Con.text)

end WeightedCsp.Instance
