import LoopNest.CommandLine.Run

/-!
# The command
-/

namespace LoopNest.Command

/-- The contents of a file, or why it cannot be read. -/
def readSource (path : String) : IO (Except ReadError String) := do
  try
    match String.fromUTF8? (← IO.FS.readBinFile path) with
    | some source => return .ok source
    | none => return .error .notText
  catch
    | .noFileOrDirectory .. => return .error .missing
    | .permissionDenied .. => return .error .denied
    | .inappropriateType _ 21 _ => return .error .isDirectory
    | .inappropriateType .. => return .error .notDirectory
    | .invalidArgument _ _ "name too long" => return .error .nameTooLong
    | e => return .error (.other (toString e))

def usage : String :=
  "usage: print KERNEL [--name NAME]\n" ++
  "       schedule KERNEL SCRIPT [--name NAME] [--platform PLATFORM] [--trace | --json]\n" ++
  "       verify KERNEL SCRIPT [--name NAME] [--platform PLATFORM] [--size NAME=VALUE]...\n" ++
  "         [--seed N] [--tolerance X]\n"

end LoopNest.Command

open LoopNest Command

def main (args : List String) : IO UInt32 := do
  match Command.parse? args with
  | none =>
    IO.eprint usage
    return 2
  | some cmd =>
    let sources ← cmd.files.mapM fun path => return (path, ← readSource path)
    match cmd.run fun path => (sources.lookup path).getD (.error .missing) with
    | .exit code stdout stderr =>
      IO.print stdout
      IO.eprint stderr
      return code.toUInt32
    | .crash => return 101
