import ManyValued.Binary64.Shortest
import ManyValued.Error
import ManyValued.Program.Arguments

/-! What a program leaves behind: an exit code, the lines on its standard output and, if it failed,
a message. -/

namespace ManyValued.Program

inductive Line where
  | text (text : String)
  /-- A number at the end of a line. -/
  | measure (label : String) (value : Float) (layout : Binary64.Layout)

def Line.render : Line → String
  | .text s => s
  | .measure label value layout => label ++ Binary64.render layout value

structure Report where
  exit : UInt32
  lines : List Line
  message : Option String

namespace Report

def done (lines : List Line) : Report := ⟨0, lines, none⟩

/-- The lines printed before an error stay. -/
def failed (lines : List Line) (e : Error) : Report := ⟨1, lines, some e.message⟩

def refused : Refusal → Report
  | .usage => ⟨2, [], none⟩
  | .help => ⟨0, [], none⟩
  | .because message => ⟨2, [], some message⟩

end Report

end ManyValued.Program
