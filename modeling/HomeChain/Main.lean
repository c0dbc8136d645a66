import HomeChain.Demo.Run

/-!
# Command line

Runs the demonstration with the arguments given and writes its transcript.
-/

open HomeChain

/-- Runs the demonstration; exits with `2` if the arguments are not understood. -/
def main (arguments : List String) : IO UInt32 := do
  match Demo.Options.ofArguments? arguments with
  | none =>
    IO.eprintln "usage: [-c CAPACITY] [-l PERCENT] [-s STRIDE] [--hasher default|identity]"
    return 2
  | some options =>
    match (Demo.run Demo.usualHash options).outcome with
    | .error fault =>
      IO.eprintln fault.message
      return 101
    | .ok transcript =>
      transcript.stdout.forM fun line => IO.println line
      transcript.stderr.forM fun line => IO.eprintln line
      return UInt32.ofNat transcript.exit
