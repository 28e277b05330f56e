/-
The program: its arguments in, text and an exit code out.
-/
import Barista.CommandLine.Run

namespace Barista

/-- A key for random tests without a seed. -/
def freshKey : IO Random.Key := do
  let bytes ← IO.getRandomBytes 8
  return Random.Key.ofSeed (bytes.foldl (fun seed byte => seed * 256 + byte.toUInt64) 0)

end Barista

def main (args : List String) : IO UInt32 := do
  let output := Barista.CommandLine.respond (← Barista.freshKey) args
  IO.print output.stdout
  IO.eprint output.stderr
  return UInt32.ofNat output.exitCode
