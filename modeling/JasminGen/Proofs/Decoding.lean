import JasminGen.Code.Line
import Std.Data.String.ToInt

/-!
# Reading code back

The text of code is a list of lines, each ended by a newline, and a line is a list of words
with blanks between them. The first word tells what the others are: `formats` is the table
of first words. Only the definition of a label has a first word that is not in the table.

Names and descriptors stand in a line as they are. They can be read back if none of them
holds a newline and those that the next word is told from hold no blank (`Line.Readable`).
Of the names that end their line, and of the access flags of a method, any words can be
put together again.

`code_read_back` says that `Code.read?` undoes `Code.text`. Every kind of line is compared
with the table once, and no two kinds with each other.
-/

namespace JasminGen

/-! ## Words -/

/-- What stands between the blanks of a text. -/
def splitWords (text : String) : List String := (text.toList.splitOn ' ').map String.ofList

def joinWords (words : List String) : String :=
  String.ofList ([' '].intercalate (words.map String.toList))

theorem splitWords_append (a b : String) :
    splitWords (a ++ " " ++ b) = splitWords a ++ splitWords b := by
  have htext : (a ++ " " ++ b).toList = a.toList ++ ' ' :: b.toList := by simp
  rw [splitWords, htext, List.splitOn_append_cons_self, List.map_append, splitWords, splitWords]

theorem splitWords_of_not_mem {w : String} (h : ' ' ∉ w.toList) : splitWords w = [w] := by
  rw [splitWords, List.splitOn_eq_singleton h, List.map_singleton, String.ofList_toList]

theorem joinWords_splitWords (text : String) : joinWords (splitWords text) = text := by
  rw [joinWords, splitWords, List.map_map, Function.comp_def]
  simp only [String.toList_ofList, List.map_id']
  rw [List.intercalate_splitOn, String.ofList_toList]

/-! ## Decimals -/

theorem not_mem_decimal {c : Char} (h : c.isDigit = false) (n : Nat) : c ∉ (toString n).toList := by
  intro hc
  rw [Nat.toString_eq_ofList_toDigits, String.toList_ofList] at hc
  have hdigit := Nat.isDigit_of_mem_toDigits (by decide) (by decide) hc
  rw [h] at hdigit
  cases hdigit

theorem not_mem_signed {c : Char} (h : c.isDigit = false) (hsign : c ≠ '-') (i : Int) :
    c ∉ (toString i).toList := by
  rw [Int.toString_eq_repr, Int.repr_eq_if]
  split
  · exact not_mem_decimal h _
  · rw [String.toList_append, List.mem_append]
    rintro (hc | hc)
    · exact hsign (List.mem_singleton.mp hc)
    · exact not_mem_decimal h _ hc

theorem splitWords_decimal (n : Nat) : splitWords (toString n) = [toString n] :=
  splitWords_of_not_mem (not_mem_decimal (by decide) n)

theorem splitWords_signed (i : Int) : splitWords (toString i) = [toString i] :=
  splitWords_of_not_mem (not_mem_signed (by decide) (by decide) i)

namespace Label

def read? (w : String) : Option Label :=
  match w.toList with
  | 'L' :: digits => (String.ofList digits).toNat?
  | _ => none

theorem toList_text (l : Label) : l.text.toList = 'L' :: (toString l).toList := by
  simp [text]

theorem read?_text (l : Label) : read? l.text = some l := by
  rw [read?, toList_text]
  simp only [String.ofList_toList]
  exact Nat.toNat?_repr l

theorem not_mem_text {c : Char} (h : c.isDigit = false) (hL : c ≠ 'L') (l : Label) :
    c ∉ l.text.toList := by
  rw [toList_text, List.mem_cons]
  exact not_or.mpr ⟨hL, not_mem_decimal h l⟩

end Label

/-! ## Lines -/

/-- The texts that stand in the instruction as they are. -/
def Instr.embedded : Instr → List String
  | getstatic f d => [f, d]
  | putstatic f d => [f, d]
  | invokestatic m => [m]
  | invokevirtual m => [m]
  | _ => []

/-- Those of them that are read as one word. -/
def Instr.singles : Instr → List String
  | getstatic f d => [f, d]
  | putstatic f d => [f, d]
  | _ => []

namespace Line

def embedded : Line → List String
  | instr i => i.embedded
  | directive (.method a d) => [a, d]
  | _ => []

def singles : Line → List String
  | instr i => i.singles
  | directive (.method _ d) => [d]
  | _ => []

/-- No newline in a text that stands in the line, and no blank in one that is read as one
word. -/
def Readable (l : Line) : Prop :=
  (∀ t ∈ l.embedded, '\n' ∉ t.toList) ∧ ∀ t ∈ l.singles, ' ' ∉ t.toList

instance (l : Line) : Decidable l.Readable := inferInstanceAs (Decidable (_ ∧ _))

/-! ### Formats -/

/-- How the words after the first one are read. -/
abbrev Format := List String → Option Line

namespace Format

def bare (l : Line) : Format
  | [] => some l
  | _ => none

def integer (f : Int32 → Instr) : Format
  | [w] => w.toInt?.map fun i => instr (f (Int32.ofInt i))
  | _ => none

def slot (f : Nat → Instr) : Format
  | [w] => w.toNat?.map fun n => instr (f n)
  | _ => none

def jump (f : Label → Instr) : Format
  | [w] => (Label.read? w).map fun l => instr (f l)
  | _ => none

def field (f : String → String → Instr) : Format
  | [x, d] => some (instr (f x d))
  | _ => none

def invoke (f : String → Instr) : Format := fun ws => some (instr (f (joinWords ws)))

/-- The last word is the descriptor, the others are the access flags. -/
def method : Format := fun ws =>
  ws.getLast?.map fun d => directive (.method (joinWords ws.dropLast) d)

def limit : Format
  | ["stack", w] => w.toNat?.map fun n => directive (.limitStack n)
  | ["locals", w] => w.toNat?.map fun n => directive (.limitLocals n)
  | _ => none

def methodEnd : Format
  | ["method"] => some (directive .endMethod)
  | _ => none

end Format

open Format

def formats : List (String × Format) :=
  [("", bare blank),
   ("ldc", integer .ldc),
   ("iload_0", bare (instr (.iload 0))), ("iload_1", bare (instr (.iload 1))),
   ("iload_2", bare (instr (.iload 2))), ("iload_3", bare (instr (.iload 3))),
   ("iload", slot .iload),
   ("istore_0", bare (instr (.istore 0))), ("istore_1", bare (instr (.istore 1))),
   ("istore_2", bare (instr (.istore 2))), ("istore_3", bare (instr (.istore 3))),
   ("istore", slot .istore),
   ("imul", bare (instr (.arith .mul))), ("idiv", bare (instr (.arith .div))),
   ("irem", bare (instr (.arith .rem))), ("iadd", bare (instr (.arith .add))),
   ("isub", bare (instr (.arith .sub))), ("ineg", bare (instr .ineg)),
   ("dup", bare (instr .dup)), ("pop", bare (instr .pop)),
   ("ifeq", jump (.branch .eq)), ("ifne", jump (.branch .ne)), ("ifle", jump (.branch .le)),
   ("iflt", jump (.branch .lt)), ("ifge", jump (.branch .ge)), ("ifgt", jump (.branch .gt)),
   ("goto", jump .goto),
   ("getstatic", field .getstatic), ("putstatic", field .putstatic),
   ("invokestatic", invoke .invokestatic), ("invokevirtual", invoke .invokevirtual),
   ("ireturn", bare (instr .ireturn)), ("return", bare (instr .vreturn)),
   (".method", method), (".limit", limit), (".end", methodEnd)]

/-- The definition of a label, which is one word. -/
def readLabel? (w : String) : Option Line :=
  match w.toList.reverse with
  | ':' :: name => (Label.read? (String.ofList name.reverse)).map label
  | _ => none

def read? (text : String) : Option Line :=
  match splitWords text with
  | [] => none
  | w :: ws =>
    match formats.lookup w with
    | some format => format ws
    | none => if ws = [] then readLabel? w else none

/-! ### Reading a line that was written -/

/-- A line of one word. -/
theorem read?_bare {l : Line} (hblank : ' ' ∉ l.text.toList)
    (hformat : formats.lookup l.text = some (bare l)) : read? l.text = some l := by
  rw [read?, splitWords_of_not_mem hblank]
  simp only [hformat, bare]

/-- A line of more than one word. -/
theorem read?_append {w : String} {format : Format} (hw : ' ' ∉ w.toList)
    (hformat : formats.lookup w = some format) (rest : String) :
    read? (w ++ " " ++ rest) = format (splitWords rest) := by
  rw [read?, splitWords_append, splitWords_of_not_mem hw]
  simp only [List.singleton_append, hformat]

/-- No first word begins as the definition of a label does. -/
theorem lookup_label (l : Label) : formats.lookup (l.text ++ ":") = none := by
  have hkeys : ∀ k ∈ formats.map Prod.fst, k.toList.head? ≠ some 'L' := by decide
  rw [List.lookup_eq_none_iff]
  intro p hp
  rw [bne_iff_ne]
  intro hkey
  refine hkeys p.1 (List.mem_map_of_mem hp) ?_
  rw [← hkey, String.toList_append, Label.toList_text]
  rfl

theorem read?_label (l : Label) : read? (label l).text = some (label l) := by
  have hblank : ' ' ∉ (l.text ++ ":").toList := by
    rw [String.toList_append, List.mem_append]
    exact not_or.mpr ⟨l.not_mem_text (by decide) (by decide), by decide⟩
  have hrev : (l.text ++ ":").toList.reverse = ':' :: l.text.toList.reverse := by simp
  rw [text, read?, splitWords_of_not_mem hblank]
  simp only [lookup_label, if_true, readLabel?, hrev, List.reverse_reverse, String.ofList_toList,
    Label.read?_text, Option.map_some]

/-- Slots up to three have a row of their own in the table. -/
theorem read?_slotText {m : String} {f : Nat → Instr} (hm : ' ' ∉ m.toList)
    (hshort : ∀ n : Fin 4, formats.lookup (m ++ "_" ++ toString n.val) = some (bare (instr (f n))))
    (hlong : formats.lookup m = some (slot f)) (n : Nat) :
    read? (Instr.slotText m n) = some (instr (f n)) := by
  by_cases hn : n ≤ 3
  · have hblank : ' ' ∉ (m ++ "_" ++ toString n).toList := by
      simp only [String.toList_append, List.mem_append]
      exact not_or.mpr ⟨not_or.mpr ⟨hm, by decide⟩, not_mem_decimal (by decide) n⟩
    rw [Instr.slotText, if_pos hn, read?, splitWords_of_not_mem hblank]
    simp only [hshort ⟨n, Nat.lt_succ_of_le hn⟩, bare]
  · rw [Instr.slotText, if_neg hn, read?_append hm hlong, splitWords_decimal, slot]
    exact congrArg (Option.map _) (Nat.toNat?_repr n)

theorem read?_jump {w : String} {f : Label → Instr} (hw : ' ' ∉ w.toList)
    (hformat : formats.lookup w = some (jump f)) (l : Label) :
    read? (w ++ " " ++ l.text) = some (instr (f l)) := by
  have hblank : ' ' ∉ l.text.toList := l.not_mem_text (by decide) (by decide)
  rw [read?_append hw hformat, splitWords_of_not_mem hblank, jump, Label.read?_text]
  rfl

theorem read?_field {w x d : String} {f : String → String → Instr} (hw : ' ' ∉ w.toList)
    (hformat : formats.lookup w = some (field f)) (hx : ' ' ∉ x.toList) (hd : ' ' ∉ d.toList) :
    read? (w ++ " " ++ x ++ " " ++ d) = some (instr (f x d)) := by
  have htext : w ++ " " ++ x ++ " " ++ d = w ++ " " ++ (x ++ " " ++ d) := by
    simp only [String.append_assoc]
  rw [htext, read?_append hw hformat, splitWords_append, splitWords_of_not_mem hx,
    splitWords_of_not_mem hd]
  rfl

theorem read?_invoke {w : String} {f : String → Instr} (hw : ' ' ∉ w.toList)
    (hformat : formats.lookup w = some (invoke f)) (m : String) :
    read? (w ++ " " ++ m) = some (instr (f m)) := by
  rw [read?_append hw hformat, invoke, joinWords_splitWords]

theorem read?_instr {i : Instr} (h : (instr i).Readable) :
    read? (instr i).text = some (instr i) := by
  cases i with
  | ldc v =>
      change read? ("ldc" ++ " " ++ toString v.toInt) = _
      rw [read?_append (by decide) rfl, splitWords_signed, integer, Int.toString_eq_repr,
        Int.toInt?_repr, Option.map_some, Int32.ofInt_toInt]
  | iload n => exact read?_slotText (by decide) (fun | 0 | 1 | 2 | 3 => rfl) rfl n
  | istore n => exact read?_slotText (by decide) (fun | 0 | 1 | 2 | 3 => rfl) rfl n
  | arith op => cases op <;> exact read?_bare (by decide) rfl
  | ineg => exact read?_bare (by decide) rfl
  | dup => exact read?_bare (by decide) rfl
  | pop => exact read?_bare (by decide) rfl
  | branch c l => cases c <;> exact read?_jump (by decide) rfl l
  | goto l => exact read?_jump (w := "goto") (by decide) rfl l
  | getstatic x d =>
      exact read?_field (w := "getstatic") (by decide) rfl (h.2 x (.head _))
        (h.2 d (.tail _ (.head _)))
  | putstatic x d =>
      exact read?_field (w := "putstatic") (by decide) rfl (h.2 x (.head _))
        (h.2 d (.tail _ (.head _)))
  | invokestatic m => exact read?_invoke (w := "invokestatic") (by decide) rfl m
  | invokevirtual m => exact read?_invoke (w := "invokevirtual") (by decide) rfl m
  | ireturn => exact read?_bare (by decide) rfl
  | vreturn => exact read?_bare (by decide) rfl

theorem read?_limit {w : String} {f : Nat → Directive} (hw : ' ' ∉ w.toList)
    (hformat : ∀ v : String, limit [w, v] = v.toNat?.map fun n => directive (f n)) (n : Nat) :
    read? (".limit" ++ " " ++ (w ++ " " ++ toString n)) = some (directive (f n)) := by
  rw [read?_append (by decide) rfl, splitWords_append, splitWords_decimal,
    splitWords_of_not_mem hw, List.singleton_append, hformat]
  exact congrArg (Option.map _) (Nat.toNat?_repr n)

theorem read?_directive {d : Directive} (h : (directive d).Readable) :
    read? (directive d).text = some (directive d) := by
  cases d with
  | method a d =>
      have hd : ' ' ∉ d.toList := h.2 d (.head _)
      have htext : (directive (.method a d)).text = ".method" ++ " " ++ (a ++ " " ++ d) := by
        change ".method" ++ " " ++ a ++ " " ++ d = _
        simp only [String.append_assoc]
      rw [htext, read?_append (by decide) rfl, splitWords_append, splitWords_of_not_mem hd, method,
        List.getLast?_concat, List.dropLast_concat, joinWords_splitWords]
      rfl
  | limitStack n => exact read?_limit (w := "stack") (by decide) (fun _ => rfl) n
  | limitLocals n => exact read?_limit (w := "locals") (by decide) (fun _ => rfl) n
  | endMethod =>
      change read? (".end" ++ " " ++ "method") = _
      rw [read?_append (by decide) rfl, splitWords_of_not_mem (by decide)]
      rfl

/-- A line is read as it was written. -/
theorem read?_text {l : Line} (h : l.Readable) : read? l.text = some l := by
  cases l with
  | instr i => exact read?_instr h
  | label l => exact read?_label l
  | directive d => exact read?_directive h
  | blank => exact read?_bare (by decide) rfl

theorem not_newline_mem_text {l : Line} (h : l.Readable) : '\n' ∉ l.text.toList := by
  have hsigned (i : Int) : '\n' ∉ (toString i).toList := not_mem_signed (by decide) (by decide) i
  have hdecimal (n : Nat) : '\n' ∉ (toString n).toList := not_mem_decimal (by decide) n
  have hlabel (l : Label) : '\n' ∉ l.text.toList := l.not_mem_text (by decide) (by decide)
  have happend {a b : String} (ha : '\n' ∉ a.toList) (hb : '\n' ∉ b.toList) :
      '\n' ∉ (a ++ b).toList := by
    rw [String.toList_append, List.mem_append]
    exact not_or.mpr ⟨ha, hb⟩
  have hslot {m : String} (hm : '\n' ∉ m.toList) (n : Nat) :
      '\n' ∉ (Instr.slotText m n).toList := by
    have hsep : '\n' ∉ (if n ≤ 3 then "_" else " ").toList := by split <;> decide
    exact happend (happend hm hsep) (hdecimal n)
  have hpair {w a b : String} (hw : '\n' ∉ w.toList) (hab : ∀ t ∈ [a, b], '\n' ∉ t.toList) :
      '\n' ∉ (w ++ a ++ " " ++ b).toList :=
    happend (happend (happend hw (hab a (.head _))) (by decide)) (hab b (.tail _ (.head _)))
  cases l with
  | instr i =>
      cases i with
      | ldc v => exact happend (by decide) (hsigned _)
      | iload n | istore n => exact hslot (by decide) n
      | arith op => cases op <;> decide
      | branch c l => cases c <;> exact happend (by decide) (hlabel l)
      | goto l => exact happend (by decide) (hlabel l)
      | getstatic x d | putstatic x d => exact hpair (by decide) h.1
      | invokestatic m | invokevirtual m => exact happend (by decide) (h.1 m (.head _))
      | ineg | dup | pop | ireturn | vreturn => decide
  | label l => exact happend (hlabel l) (by decide)
  | directive d =>
      cases d with
      | method a d => exact hpair (by decide) h.1
      | limitStack n | limitLocals n => exact happend (by decide) (hdecimal n)
      | endMethod => decide
  | blank => decide

end Line

namespace Code

/-- The lines of a text are read one by one. What stands after the last newline is no line. -/
def read? (text : String) : Option Code :=
  (text.toList.splitOn '\n').dropLast.mapM fun l => Line.read? (String.ofList l)

theorem splitOn_text {c : Code} (h : ∀ l ∈ c, l.Readable) :
    (text c).toList.splitOn '\n' = c.map (fun l => l.text.toList) ++ [[]] := by
  induction c with
  | nil => rfl
  | cons l c ih =>
      have htext : (text (l :: c)).toList = l.text.toList ++ '\n' :: (text c).toList := by
        simp [text]
      have hl := Line.not_newline_mem_text (h l List.mem_cons_self)
      rw [htext, List.splitOn_append_cons_self_of_not_mem hl,
        ih fun l hl => h l (List.mem_cons_of_mem _ hl)]
      rfl

theorem read?_text {c : Code} (h : ∀ l ∈ c, l.Readable) : read? c.text = some c := by
  rw [read?, splitOn_text h, List.dropLast_concat, List.mapM_map]
  simp only [Function.comp_def, String.ofList_toList]
  induction c with
  | nil => rfl
  | cons l c ih =>
      rw [List.mapM_cons, Line.read?_text (h l List.mem_cons_self),
        ih fun l hl => h l (List.mem_cons_of_mem _ hl)]
      rfl

end Code

/-- **Decoding.** Code can be read back from its text, so codes with the same text are the
same. Constants, slots, labels and limits are arbitrary. -/
theorem code_read_back :
    (∀ c : Code, (∀ l ∈ c, l.Readable) → Code.read? c.text = some c)
    ∧ ∀ c d : Code, (∀ l ∈ c, l.Readable) → (∀ l ∈ d, l.Readable) → c.text = d.text → c = d := by
  refine ⟨fun c => Code.read?_text, fun c d hc hd htext => ?_⟩
  have hread := Code.read?_text hc
  rw [htext, Code.read?_text hd] at hread
  exact (Option.some.inj hread).symm

/-- Lines of all kinds, with flags and a name of several words. -/
def Code.assorted : Code :=
  [.directive (.method "public static" "f(I)V"), .directive (.limitStack 2),
   .directive (.limitLocals 70000), .instr (.ldc (-2147483648)), .instr (.istore 3),
   .instr (.iload 4), .instr (.branch .le 10), .instr (.getstatic "Test/x" "I"),
   .instr (.invokestatic "Test/two words()V"), .label 10, .blank, .instr .vreturn] ++
    Code.methodEnd

theorem assorted_read_back :
    Code.read? Code.assorted.text = some Code.assorted
    ∧ ∀ d : Code, (∀ l ∈ d, l.Readable) → Code.assorted.text = d.text → Code.assorted = d := by
  have hreadable : ∀ l ∈ Code.assorted, l.Readable := by decide
  obtain ⟨hread, hinj⟩ := code_read_back
  exact ⟨hread _ hreadable, fun d => hinj _ d hreadable⟩

/-- A blank in the name of a field can be taken for the end of the name. -/
example : (Line.instr (.getstatic "a b" "c")).text = (Line.instr (.getstatic "a" "b c")).text := by
  decide

end JasminGen
