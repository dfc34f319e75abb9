import JasminGen.Config
import JasminGen.Signature
import Mathlib.Data.List.Nodup

/-!
# Reading symbolic references

Instructions name fields and methods by text. The machine takes what it needs
to know from that text alone: which class a member belongs to, and how many
operands a method takes and whether it leaves one. This file reads the text
back, and shows that what `Signature.descriptor` and `Config.qualified` write
is read as it was meant.

Names are arbitrary, so a name may itself contain parentheses. A descriptor
never has an opening parenthesis after its first character, hence the last one
of the text is where the descriptor starts.
-/

namespace JasminGen

/-- The member that a reference names, if it is one of the class `cls`. -/
def memberOf? (cls text : String) : Option String :=
  ((cls ++ "/").toList.isPrefixOf? text.toList).map String.ofList

/-- What a reference to a method says. -/
structure MethodSymbol where
  name : String
  params : Nat
  returns : ReturnType
  deriving DecidableEq

namespace MethodSymbol

mutual

/-- The number of types up to the closing parenthesis, and what stands after
it. A bracket belongs to the type that follows it. -/
def readParams : List Char → Nat × List Char
  | [] => (0, [])
  | ')' :: rest => (0, rest)
  | '[' :: rest => readParams rest
  | 'L' :: rest => readClass rest
  | _ :: rest => ((readParams rest).1 + 1, (readParams rest).2)

/-- The same from within the name of a class, which ends with a semicolon. -/
def readClass : List Char → Nat × List Char
  | [] => (0, [])
  | ';' :: rest => ((readParams rest).1 + 1, (readParams rest).2)
  | _ :: rest => readClass rest

end

/-- The descriptor of a method reference, without its opening parenthesis. -/
def descriptorOf (text : List Char) : List Char :=
  (text.reverse.takeWhile (· != '(')).reverse

/-- What stands before the descriptor. -/
def nameOf (text : List Char) : List Char :=
  ((text.reverse.dropWhile (· != '(')).drop 1).reverse

def ofText (text : String) : MethodSymbol :=
  let read := readParams (descriptorOf text.toList)
  { name := String.ofList (nameOf text.toList)
    params := read.1
    returns := if read.2 = ['V'] then .void else .int }

/-! ## Reading what was written -/

theorem split_at_paren (name : List Char) {rest : List Char} (h : '(' ∉ rest) :
    nameOf (name ++ '(' :: rest) = name ∧ descriptorOf (name ++ '(' :: rest) = rest := by
  have hrest : ∀ c ∈ rest.reverse, (c != '(') = true := by
    intro c hc
    rw [bne_iff_ne]
    rintro rfl
    exact h (List.mem_reverse.mp hc)
  have hrev : (name ++ '(' :: rest).reverse = rest.reverse ++ '(' :: name.reverse := by simp
  constructor
  · rw [nameOf, hrev, List.dropWhile_append_of_pos hrest]
    simp
  · rw [descriptorOf, hrev, List.takeWhile_append_of_pos hrest]
    simp

theorem readParams_descriptors (ps : List DataType) (rest : List Char) :
    readParams ((String.join (ps.map DataType.descriptor)).toList ++ ')' :: rest) =
      (ps.length, rest) := by
  rw [String.toList_join]
  induction ps with
  | nil => simp [readParams]
  | cons p ps ih =>
      cases p with
      | int => simp [DataType.descriptor, readParams, ih]
      | intArray => simp [DataType.descriptor, readParams, ih]

theorem not_paren_mem_descriptors (ps : List DataType) :
    '(' ∉ (String.join (ps.map DataType.descriptor)).toList := by
  rw [String.toList_join]
  intro h
  obtain ⟨d, hd, hmem⟩ := List.mem_flatMap.mp h
  obtain ⟨p, -, rfl⟩ := List.mem_map.mp hd
  cases p <;> simp [DataType.descriptor] at hmem

end MethodSymbol

namespace Signature

/-- What stands after the opening parenthesis of the descriptor. -/
def types : Signature → String
  | entryPoint => "[Ljava/lang/String;)V"
  | plain _ ps t => String.join (ps.map DataType.descriptor) ++ ")" ++ t.descriptor

theorem toList_types_plain (f : String) (ps : List DataType) (t : ReturnType) :
    (plain f ps t).types.toList =
      (String.join (ps.map DataType.descriptor)).toList ++ ')' :: t.descriptor.toList := by
  simp [types]

theorem toList_descriptor (s : Signature) :
    s.descriptor.toList = s.name.toList ++ '(' :: s.types.toList := by
  cases s <;> simp [descriptor, name, types]

theorem not_paren_mem_types (s : Signature) : '(' ∉ s.types.toList := by
  cases s with
  | entryPoint => simp [types]
  | plain f ps t =>
      have hreturns : '(' ∉ t.descriptor.toList := by cases t <;> simp [ReturnType.descriptor]
      rw [toList_types_plain, List.mem_append, List.mem_cons]
      exact not_or.mpr ⟨MethodSymbol.not_paren_mem_descriptors ps, not_or.mpr ⟨by decide, hreturns⟩⟩

end Signature

namespace MethodSymbol

theorem readParams_types (s : Signature) :
    readParams s.types.toList = (s.arity, s.returns.descriptor.toList) := by
  cases s with
  | entryPoint => simp [Signature.types, Signature.arity, Signature.params, Signature.returns,
      ReturnType.descriptor, readParams, readClass]
  | plain f ps t =>
      rw [Signature.toList_types_plain, readParams_descriptors]
      rfl

/-- A method reference is read as the signature it was written from, whatever
was written in front of it. -/
theorem ofText_append_descriptor (before : String) (s : Signature) :
    ofText (before ++ s.descriptor) = ⟨before ++ s.name, s.arity, s.returns⟩ := by
  have htext : (before ++ s.descriptor).toList =
      (before ++ s.name).toList ++ '(' :: s.types.toList := by
    rw [String.toList_append, s.toList_descriptor, String.toList_append, List.append_assoc]
  obtain ⟨hname, hdesc⟩ := split_at_paren (before ++ s.name).toList s.not_paren_mem_types
  rw [ofText, htext, hname, hdesc, readParams_types]
  cases s.returns <;> simp [ReturnType.descriptor]

theorem ofText_descriptor (s : Signature) :
    ofText s.descriptor = ⟨s.name, s.arity, s.returns⟩ := by
  simpa using ofText_append_descriptor "" s

end MethodSymbol

theorem find?_eq_some_of_unique {α : Type} {p : α → Bool} {l : List α} {a : α} (ha : a ∈ l)
    (hp : p a = true) (hunique : ∀ b ∈ l, p b = true → b = a) : l.find? p = some a := by
  cases hfind : l.find? p with
  | none => exact absurd hp (List.find?_eq_none.mp hfind a ha)
  | some b => rw [hunique b (List.mem_of_find?_eq_some hfind) (List.find?_some hfind)]

namespace Signature

/-- The last opening parenthesis ends the name, so name and types are both told. -/
theorem name_and_types_eq {s t : Signature} (h : s.descriptor = t.descriptor) :
    s.name = t.name ∧ s.types = t.types := by
  have htext : s.name.toList ++ '(' :: s.types.toList = t.name.toList ++ '(' :: t.types.toList := by
    rw [← s.toList_descriptor, h, t.toList_descriptor]
  obtain ⟨hname, htypes⟩ := MethodSymbol.split_at_paren s.name.toList s.not_paren_mem_types
  obtain ⟨hname', htypes'⟩ := MethodSymbol.split_at_paren t.name.toList t.not_paren_mem_types
  rw [htext] at hname htypes
  exact ⟨String.toList_injective (hname.symm.trans hname'),
    String.toList_injective (htypes.symm.trans htypes')⟩

/-- Types are told apart as they are read: none begins as another does, and none begins with
the parenthesis that closes the list. -/
theorem params_append_inj {ps qs : List DataType} {rest rest' : List Char}
    (h : (String.join (ps.map DataType.descriptor)).toList ++ ')' :: rest =
      (String.join (qs.map DataType.descriptor)).toList ++ ')' :: rest') :
    ps = qs ∧ rest = rest' := by
  rw [String.toList_join, String.toList_join] at h
  induction ps generalizing qs with
  | nil =>
      cases qs with
      | nil => exact ⟨rfl, (List.cons.inj h).2⟩
      | cons q qs => cases q <;> simp [DataType.descriptor] at h
  | cons p ps ih =>
      cases qs with
      | nil => cases p <;> simp [DataType.descriptor] at h
      | cons q qs =>
          have hpq : p = q := by cases p <;> cases q <;> simp [DataType.descriptor] at h ⊢
          subst hpq
          simp only [List.map_cons, List.flatMap_cons, List.append_assoc,
            List.append_cancel_left_eq] at h
          obtain ⟨hps, hrest⟩ := ih h
          exact ⟨congrArg (p :: ·) hps, hrest⟩

/-- The strings that the entry point takes are of a type that no other function has. -/
theorem types_plain_ne (f : String) (ps : List DataType) (t : ReturnType) :
    (plain f ps t).types ≠ entryPoint.types := by
  intro h
  have hchars := congrArg String.toList h
  rw [toList_types_plain, String.toList_join] at hchars
  cases ps with
  | nil => simp [types] at hchars
  | cons p ps => cases p <;> simp [types, DataType.descriptor] at hchars

/-- A descriptor tells the whole signature. -/
theorem eq_of_descriptor_eq {s t : Signature} (h : s.descriptor = t.descriptor) : s = t := by
  obtain ⟨hname, htypes⟩ := name_and_types_eq h
  cases s with
  | entryPoint =>
      cases t with
      | entryPoint => rfl
      | plain g qs u => exact absurd htypes.symm (types_plain_ne g qs u)
  | plain f ps r =>
      cases t with
      | entryPoint => exact absurd htypes (types_plain_ne f ps r)
      | plain g qs u =>
          have hchars := congrArg String.toList htypes
          rw [toList_types_plain, toList_types_plain] at hchars
          obtain ⟨hparams, hreturns⟩ := params_append_inj hchars
          have hru : r = u := by cases r <;> cases u <;> simp [ReturnType.descriptor] at hreturns ⊢
          have hfg : f = g := hname
          rw [hfg, hparams, hru]

end Signature

theorem Signatures.find?_descriptor {r : Signatures} {s : Signature} (hs : s ∈ r.entries) :
    (r.entries.find? fun t => t.descriptor == s.descriptor) = some s := by
  refine find?_eq_some_of_unique hs (beq_self_eq_true _) ?_
  intro t ht hdescriptor
  exact Signature.eq_of_descriptor_eq (beq_iff_eq.mp hdescriptor)

theorem memberOf?_qualified (config : Config) (member : String) :
    memberOf? config.className (config.qualified member) = some member := by
  have htext : (config.qualified member).toList =
      (config.className ++ "/").toList ++ member.toList := by
    simp [Config.qualified]
  rw [memberOf?, htext, List.isPrefixOf?_eq_some_iff_append_eq.mpr rfl]
  simp

end JasminGen
