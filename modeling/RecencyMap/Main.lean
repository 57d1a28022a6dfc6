import RecencyMap.Bench

/-!
# Benchmark command line

Runs the benchmark program on the process arguments: its log lines go to standard error, its
report to standard output, and its exit code is the process's.
-/

open RecencyMap

/-- Run the benchmark with the clock as the default seed. -/
def main (args : List String) : IO UInt32 := do
  let seed ← IO.monoNanosNow
  let report := Bench.run { processors := 1, clockSeed := seed } args
  for line in report.stderr do
    IO.eprintln line
  if let some r := report.result then
    for line in r.lines do
      IO.println line
  return report.exit.toUInt32
