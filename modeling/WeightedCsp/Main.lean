import WeightedCsp.Cli.Run

/-!
# The command line program

Carries out the outcome of a command: writes its files, shows its texts and ends with its code.
Programs for local search are not started from here.
-/

namespace WeightedCsp.Main

/-- The world that a command sees. -/
def world (setting : Option String) : Cli.World where
  run _ := .notStarted "programs cannot be started from here"
  refuses _ := none
  warmStartSetting := setting

/-- Writes files; false if one of them cannot be made. -/
def writeFiles : List (String × String) → IO Bool
  | [] => return true
  | (path, content) :: rest => do
    try
      IO.FS.writeFile path content
      writeFiles rest
    catch e =>
      IO.eprint (Cli.errorText (Cli.Error.chain (.file path (toString e))))
      return false

end WeightedCsp.Main

/-- Carries out a command line. -/
def main (args : List String) : IO UInt32 := do
  let setting ← IO.getEnv "SCOP_TIMEOUT"
  let outcome := WeightedCsp.Cli.run (WeightedCsp.Main.world setting) args
  if ← WeightedCsp.Main.writeFiles outcome.files then
    IO.print outcome.output
    IO.eprint outcome.message
    return outcome.code.toUInt32
  else return 1
