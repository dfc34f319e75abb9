import JasminGen.Code.Line

/-!
# Patterns of control flow

The shapes in which lowered code is put together. Each takes the labels it
needs and the code of its parts. There is no instruction that yields a truth
value, so a truth value is made by branching around one of two constants.

* `choose fall taken hit done` pushes `fall` when entered from above and
  `taken` when entered at `hit`.
* `truth onZero done` turns the top of the stack into 1, or 0 if it is zero.
* `compare c hit done` turns the two top values into 1 or 0, by the sign of
  their difference.
* `negate entry onZero done` turns the top of the stack into 0, or 1 if it is
  zero. The label `entry` marks the non-zero path; nothing jumps to it.
* `ifThen`, `ifElse` and `loop` place the code of a condition and of the parts
  it decides on.
-/

namespace JasminGen.Code

def choose (fall taken : Int32) (hit done : Label) : Code :=
  [.instr (.ldc fall), .instr (.goto done), .label hit, .instr (.ldc taken), .label done]

def truth (onZero done : Label) : Code :=
  .instr (.branch .eq onZero) :: choose 1 0 onZero done

def compare (c : Comparison) (hit done : Label) : Code :=
  .instr (.arith .sub) :: .instr (.branch c hit) :: choose 0 1 hit done

def negate (entry onZero done : Label) : Code :=
  .instr (.branch .eq onZero) :: .label entry :: choose 0 1 onZero done

def ifThen (cond yes : Code) (done : Label) : Code :=
  cond ++ .instr (.branch .eq done) :: yes ++ [.label done]

def ifElse (cond yes no : Code) (otherwise done : Label) : Code :=
  cond ++ .instr (.branch .eq otherwise) :: yes ++
    .instr (.goto done) :: .label otherwise :: no ++ [.label done]

def loop (cond body : Code) (start done : Label) : Code :=
  .label start :: cond ++ .instr (.branch .eq done) :: body ++
    [.instr (.goto start), .label done]

end JasminGen.Code
