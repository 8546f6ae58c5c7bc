import OutputDescriptor.CommandLine
import OutputDescriptor.Key.Secp256k1

/-!
The program: runs the command line and prints what it reports.
-/

def main (arguments : List String) : IO UInt32 := do
  let outcome := OutputDescriptor.CommandLine.run arguments
  (← IO.getStderr).putStr outcome.err
  (← IO.getStdout).putStr outcome.out
  return outcome.exitCode.toUInt32
