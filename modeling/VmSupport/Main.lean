import VmSupport.Stress

open VmSupport

def main (args : List String) : IO UInt32 := do
  let start ← IO.monoMsNow
  let report := Stress.runWords args
  for line in report.output do
    IO.println line
  for line in report.errors do
    IO.eprintln line
  let stop ← IO.monoMsNow
  if report.code = 0 then
    IO.println s!"elapsed:            {stop - start}ms"
  return report.code
