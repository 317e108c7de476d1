import WeightedCsp.Places

/-!
# Weighted-linear instances

The form of a problem that local search works on.  Variables range over labels; a constraint is
linear over terms that contribute their coefficient when a variable takes a label, or demands that
variables take different labels.  Names are unique, and a constraint may speak only of variables
that are there already.
-/

namespace WeightedCsp

/-- How the two sides of a linear constraint of an instance relate. -/
inductive Relation where
  | le
  | ge
  | eq
deriving DecidableEq, Repr

/-- The usual sign. -/
def Relation.text : Relation → String
  | .le => "<="
  | .ge => ">="
  | .eq => "="

namespace Instance

/-- A variable over labels. -/
structure Var where
  name : String
  labels : List String
deriving DecidableEq, Repr

/-- `coeff` where the variable takes the label, and zero elsewhere. -/
structure Term where
  coeff : Int
  var : String
  label : String
deriving DecidableEq, Repr

/-- What a constraint of an instance demands. -/
inductive Demand where
  /-- A sum of terms relates to a constant. -/
  | linear (terms : List Term) (rel : Relation) (rhs : Int)
  /-- The variables take pairwise different labels. -/
  | allDifferent (vars : List String)
deriving DecidableEq, Repr

/-- What a violation of a constraint costs for each unit. -/
inductive Price where
  /-- The constraint has to hold. -/
  | hard
  /-- The constraint may be violated at this price. -/
  | soft (price : Int)
deriving DecidableEq, Repr

/-- The price that the weight of a constraint of a model stands for: every negative number means
hard. -/
def Price.ofModel (weight : Int) : Price := if weight < 0 then .hard else .soft weight

/-- A constraint of an instance. -/
structure Con where
  name : String
  weight : Price
  demand : Demand
deriving DecidableEq, Repr

/-- The names of the variables of a constraint, in order. -/
def Con.varNames (c : Con) : List String :=
  match c.demand with
  | .linear terms _ _ => terms.map (·.var)
  | .allDifferent vars => vars

end Instance

/-- Why an instance refuses an entry. -/
inductive InstanceError where
  /-- The name of a variable is taken. -/
  | duplicateVariable (name : String)
  /-- The name of a constraint is taken. -/
  | duplicateConstraint (name : String)
  /-- A constraint speaks of a variable that is not there. -/
  | undeclaredVariable (constraint var : String)
deriving DecidableEq, Repr

/-- The wording of an instance error. -/
def InstanceError.message : InstanceError → String
  | .duplicateVariable name => s!"variable `{name}` is already declared"
  | .duplicateConstraint name => s!"constraint `{name}` is already declared"
  | .undeclaredVariable constraint var =>
    s!"constraint `{constraint}` references undeclared variable `{var}`"

/-- Variables and constraints in the order of their entry, with tables of their places. -/
structure Instance where
  /-- The variables. -/
  vars : List Instance.Var
  /-- Where the variable of a name stands. -/
  varPlaces : Places
  /-- The constraints. -/
  constraints : List Instance.Con
  /-- Where the constraint of a name stands. -/
  conPlaces : Places
deriving DecidableEq

namespace Instance

/-- A change of an instance, which may be refused. -/
abbrev Entering : Type → Type := Step InstanceError Instance

/-- The instance without entries. -/
def empty : Instance := ⟨[], [], [], []⟩

/-- The instance with the given entries, whether they fit together or not. -/
def ofLists (xs : List Var) (ks : List Con) : Instance :=
  ⟨xs, .ofNames (xs.map (·.name)), ks, .ofNames (ks.map (·.name))⟩

/-- The variable of that name. -/
def lookupVar (i : Instance) (name : String) : Checked (Option Var) := i.varPlaces.find i.vars name

/-- The constraint of that name. -/
def lookupCon (i : Instance) (name : String) : Checked (Option Con) :=
  i.conPlaces.find i.constraints name

/-- The instance with one more variable at the end. -/
def withVar (i : Instance) (x : Var) : Instance :=
  { i with vars := i.vars ++ [x], varPlaces := (x.name, i.vars.length) :: i.varPlaces }

/-- The instance with one more constraint at the end. -/
def withCon (i : Instance) (k : Con) : Instance :=
  { i with
    constraints := i.constraints ++ [k]
    conPlaces := (k.name, i.constraints.length) :: i.conPlaces }

/-- Enters a variable. -/
def addVar (x : Var) : Entering Unit := do
  if (← get).varPlaces.contains x.name then Step.fail (.duplicateVariable x.name)
  modify (·.withVar x)

/-- Enters a constraint over variables that are there already. -/
def addCon (k : Con) : Entering Unit := do
  let i ← get
  if i.conPlaces.contains k.name then Step.fail (.duplicateConstraint k.name)
  if let some x := k.varNames.find? (!i.varPlaces.contains ·) then
    Step.fail (.undeclaredVariable k.name x)
  modify (·.withCon k)

/-! ### Meaning -/

/-- The sum of the terms whose variable takes their label. -/
def total (label : String → String) (terms : List Term) : Int :=
  terms.foldr (fun t n => (if label t.var = t.label then t.coeff else 0) + n) 0

/-- The amount by which a sum misses its constant. -/
def missedBy (rel : Relation) (sum rhs : Int) : Int :=
  match rel with
  | .le => max (sum - rhs) 0
  | .ge => max (rhs - sum) 0
  | .eq => (sum - rhs).natAbs

end Instance

end WeightedCsp
