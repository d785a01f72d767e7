import ManyValued.Program.Compare
import ManyValued.Program.Evaluate

/-! The command line. The first argument chooses the program, the others are its own. -/

namespace ManyValued

def usage : String := "usage: formula FORMULA [-a ATOM=VALUE]... [--logic LOGIC] [--cached] [--tree]
       compose [--strategy STRATEGY] [--hidden INT] [--steps INT] [--verbose]"

def report : List String → Program.Report
  | "formula" :: args => Program.Evaluate.run args
  | "compose" :: args => Program.Compare.run args
  | _ => .refused .usage

end ManyValued

open ManyValued in
def main (args : List String) : IO UInt32 := do
  let r := report args
  for line in r.lines do
    IO.println line.render
  if let some message := r.message then
    IO.eprintln message
  else if r.exit ≠ 0 ∨ r.lines.isEmpty then
    IO.eprintln usage
  return r.exit
