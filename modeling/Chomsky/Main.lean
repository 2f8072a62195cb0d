import Chomsky.Showcase

/-! The command line: a demonstration of the conversion. -/

/-- Prints the demonstration, with its report on the standard error stream. -/
def main : IO UInt32 := do
  IO.print Chomsky.Showcase.output
  IO.eprint Chomsky.Showcase.report
  return 0
