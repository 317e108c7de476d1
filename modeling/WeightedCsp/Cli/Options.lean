/-!
# Options on a command line

A command line is read from left to right.  An option is written `--name value` or `--name=value`
and stands at most once; a value given apart does not begin with a minus sign, unless it is one.
`--help` and `-h` end the reading wherever they stand.  After `--` everything is positional.

A `Level` is a part of the line with options of its own: the part before a subcommand, or the part
after it.  Shared options are allowed at both.
-/

namespace WeightedCsp.Cli

/-- Why a command line is not carried out. -/
inductive Refusal where
  /-- Help or the version was asked for. -/
  | help
  /-- The line is wrong. -/
  | usage
deriving DecidableEq, Repr

/-- An option that changes a record of type `α`. -/
structure OptionRule (α : Type) where
  /-- The name without its dashes. -/
  name : String
  /-- Takes a value into the record, unless the value is wrong. -/
  set : String → α → Option α

/-- An argument by its form. -/
inductive Argument where
  /-- Two dashes alone. -/
  | escape
  /-- A name after two dashes, with a value after an equals sign if there is one. -/
  | long (name : String) (value : Option String)
  /-- A letter after one dash; what follows it does not count. -/
  | short (letter : Char)
  /-- Anything else. -/
  | plain
deriving DecidableEq, Repr

/-- The form of an argument. -/
def Argument.ofString (arg : String) : Argument :=
  match arg.toList with
  | ['-', '-'] => .escape
  | '-' :: '-' :: cs =>
    let name := String.ofList (cs.takeWhile (· ≠ '='))
    match cs.dropWhile (· ≠ '=') with
    | [] => .long name none
    | _ :: value => .long name (some (String.ofList value))
  | '-' :: c :: _ => .short c
  | _ => .plain

/-- The argument can be the value of an option before it. -/
def canBeValue (arg : String) : Bool := Argument.ofString arg = .plain

/-- A part of a command line. -/
structure Level (α γ : Type) where
  /-- Its own options. -/
  own : List (OptionRule α)
  /-- The options that it shares with other parts. -/
  shared : List (OptionRule γ)
  /-- What is done with an argument at its only free place; nothing if there is no such place. -/
  positional : Option (String → α → Option α)
  /-- The part ends at the first argument that is no option. -/
  stops : Bool
  /-- The version can be asked for. -/
  version : Bool

/-- What is read of a part. -/
structure Reading (α γ : Type) where
  /-- The record of its own options. -/
  own : α
  /-- The record of the shared options. -/
  shared : γ
  /-- The options that stand in this part already. -/
  used : List String
  /-- The free place is taken. -/
  placed : Bool

namespace Level

variable {α γ : Type}

/-- Takes the value of an option. -/
def set (l : Level α γ) (name value : String) (r : Reading α γ) :
    Except Refusal (Reading α γ) :=
  if name ∈ r.used then .error .usage
  else
    let r := { r with used := name :: r.used }
    match l.own.find? (·.name = name), l.shared.find? (·.name = name) with
    | some rule, _ =>
      match rule.set value r.own with
      | some own => .ok { r with own := own }
      | none => .error .usage
    | none, some rule =>
      match rule.set value r.shared with
      | some shared => .ok { r with shared := shared }
      | none => .error .usage
    | none, none => .error .usage

/-- The option is known at this level. -/
def knows (l : Level α γ) (name : String) : Bool :=
  l.own.any (·.name = name) || l.shared.any (·.name = name)

/-- Takes an argument at the free place. -/
def place (l : Level α γ) (arg : String) (r : Reading α γ) : Except Refusal (Reading α γ) :=
  match l.positional with
  | none => .error .usage
  | some take =>
    if r.placed then .error .usage
    else
      match take arg r.own with
      | some own => .ok { r with own := own, placed := true }
      | none => .error .usage

/-- Takes all arguments at the free place. -/
def placeAll (l : Level α γ) : List String → Reading α γ → Except Refusal (Reading α γ)
  | [], r => .ok r
  | arg :: rest, r => do l.placeAll rest (← l.place arg r)

/-- What a name without a value asks for, if it is no option with one. -/
def request? (l : Level α γ) (name : String) : Option Refusal :=
  if name = "help" || (l.version && name = "version") then some .help
  else if l.knows name then none
  else some .usage

/-- What a letter asks for. -/
def letter (l : Level α γ) (c : Char) : Refusal :=
  if c = 'h' || (l.version && c = 'V') then .help else .usage

/-- Reads a part of a command line; gives the arguments that are left for the next part. -/
def read (l : Level α γ) : List String → Reading α γ → Except Refusal (Reading α γ × List String)
  | [], r => .ok (r, [])
  | arg :: rest, r =>
    match Argument.ofString arg with
    | .escape =>
      match l.placeAll rest r with
      | .ok r => .ok (r, [])
      | .error e => .error e
    | .short c => .error (l.letter c)
    | .long name (some value) =>
      match l.set name value r with
      | .ok r => l.read rest r
      | .error e => .error e
    | .long name none =>
      match l.request? name, rest with
      | some refusal, _ => .error refusal
      | none, [] => .error .usage
      | none, value :: rest =>
        if canBeValue value then
          match l.set name value r with
          | .ok r => l.read rest r
          | .error e => .error e
        else .error .usage
    | .plain =>
      if l.stops then .ok (r, arg :: rest)
      else
        match l.place arg r with
        | .ok r => l.read rest r
        | .error e => .error e

end Level

end WeightedCsp.Cli
