import JasminGen.Code.Instr

/-!
# Lines of code

Code is a list of lines: instructions, labels, the directives that frame a
method, and blank lines. Everything else about code is a view of this list:
its instructions, the labels it defines, the labels it jumps to, its text.
-/

namespace JasminGen

inductive Directive where
  | method (access descriptor : String)
  | limitStack (limit : Nat)
  | limitLocals (limit : Nat)
  | endMethod
  deriving DecidableEq

def Directive.text : Directive → String
  | method a d => ".method " ++ a ++ " " ++ d
  | limitStack n => ".limit stack " ++ toString n
  | limitLocals n => ".limit locals " ++ toString n
  | endMethod => ".end method"

inductive Line where
  | instr (i : Instr)
  | label (l : Label)
  | directive (d : Directive)
  | blank
  deriving DecidableEq

namespace Line

def text : Line → String
  | instr i => i.text
  | label l => l.text ++ ":"
  | directive d => d.text
  | blank => ""

def instr? : Line → Option Instr
  | instr i => some i
  | _ => none

def label? : Line → Option Label
  | label l => some l
  | _ => none

end Line

abbrev Code := List Line

namespace Code

def instrs (c : Code) : List Instr := c.filterMap Line.instr?

/-- The labels defined, in text order. -/
def labels (c : Code) : List Label := c.filterMap Line.label?

/-- The labels jumped to, in text order. -/
def targets (c : Code) : List Label := (instrs c).filterMap Instr.target?

/-- Whether the last instruction returns. Labels and directives after it do
not count. -/
def endsWithReturn (c : Code) : Bool := (instrs c).getLast?.any Instr.isReturn

def lineTexts (c : Code) : List String := c.map Line.text

/-- Every line is ended by a newline, the last one too. -/
def text (c : Code) : String := String.join (c.map fun l => l.text ++ "\n")

@[simp] theorem instrs_append (c d : Code) : instrs (c ++ d) = instrs c ++ instrs d :=
  List.filterMap_append

@[simp] theorem labels_append (c d : Code) : labels (c ++ d) = labels c ++ labels d :=
  List.filterMap_append

@[simp] theorem targets_append (c d : Code) : targets (c ++ d) = targets c ++ targets d := by
  simp [targets]

@[simp] theorem text_append (c d : Code) : text (c ++ d) = text c ++ text d := by
  simp [text]

/-- The lines that end a method. -/
def methodEnd : Code := [.directive .endMethod, .blank]

end Code

end JasminGen
