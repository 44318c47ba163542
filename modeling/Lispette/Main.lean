import Lispette.CommandLine

/-!
# The compiler as a program
-/

namespace Lispette.CommandLine

/-- Reads standard input, or the given file, to its end. -/
def readSource (input : Option String) : IO (Except ReadError String) := do
  try
    let bytes ← match input with
      | none => (← IO.getStdin).readBinToEnd
      | some file => IO.FS.readBinFile file
    return match String.fromUTF8? bytes with
      | some source => .ok source
      | none => .error .notUnicode
  catch _ =>
    return .error .noSuchFile

end Lispette.CommandLine

open Lispette.CommandLine in
def main (arguments : List String) : IO UInt32 := do
  let options := Options.ofArguments arguments
  let source ← if options.version then pure (.ok "") else readSource options.input
  let outcome := run options source
  IO.eprint outcome.errorOutput
  IO.print outcome.output
  return outcome.exitCode.toUInt32
