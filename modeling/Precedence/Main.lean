import Precedence.Command

/-!
The entry point of the command line.
-/

def main (arguments : List String) : IO UInt32 := do
  let result := Precedence.Command.run arguments
  for line in result.log do
    IO.eprintln line
  IO.print result.output
  return result.status.toUInt32
