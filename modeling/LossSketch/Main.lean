import LossSketch.CommandLine

/-!
# The command line

Simulates packet loss, decodes the lost packets from sketches, and prints the messages of the trials
and a table of results.
-/

open LossSketch

/-- How the command is called. -/
def usage : String :=
  "usage: <counting|invertible|summing|power-sum> [-n NUM] [-p PROBABILITY] [--malicious]\n" ++
  "  [--trials NUM] [--seed SEED] [--buckets NUM] [-k HASHES] [--disjoint] [-w BITS]\n" ++
  "  [--modulus PRIME] [-d DEGREE] [--packet-bytes NUM] [--solver <backtracking|glpk>]"

/-- Runs the simulation that the arguments describe. -/
def main (arguments : List String) : IO UInt32 := do
  match Simulation.ofArguments? arguments with
  | none =>
    IO.eprintln usage
    return 2
  | some simulation =>
    match simulation.run with
    | .error (.error e) =>
      IO.eprintln ("Error: " ++ e.diagnostic)
      return 1
    | .error .tooLarge =>
      IO.eprintln "the simulation is too large"
      return 2
    | .ok report =>
      report.messages.forM IO.println
      IO.println "errors\tlogged\tp_drop\tbytes"
      IO.println (String.intercalate "\t" [toString report.errors, toString report.logged,
        floatText simulation.dropProbability, toString report.snapshotBytes])
      return 0
