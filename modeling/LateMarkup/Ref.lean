import Std.Data.ExtTreeMap
import LateMarkup.InvalidText

/-! # Refs

A ref names one node of a document. It is written into marker tags, marker attributes and runtime
keys as it stands, so its characters are restricted to those that all three can hold: `e0`
followed by one or more lowercase ASCII letters or digits. The restriction is part of the type.

Refs are ordered by their text, which is the order in which registries list them.
-/

namespace LateMarkup

namespace Ref

/-- A character that may follow the opening `e0` of a ref: a lowercase ASCII letter or a digit. -/
def isTailChar (c : Char) : Bool := c.isLower || c.isDigit

/-- A text is a ref when it is `e0` followed by one or more tail characters. -/
def isValid : List Char → Bool
  | 'e' :: '0' :: tail => !tail.isEmpty && tail.all isTailChar
  | _ => false

/-! Some short refs. -/

theorem isValid_e0a : isValid "e0a".toList = true := by decide

theorem isValid_e0b : isValid "e0b".toList = true := by decide

theorem isValid_e0c : isValid "e0c".toList = true := by decide

end Ref

/-- The name of one node. -/
structure Ref where
  text : String
  valid : Ref.isValid text.toList = true
deriving DecidableEq

namespace Ref

def ofString? (text : String) : Option Ref :=
  if valid : isValid text.toList = true then some ⟨text, valid⟩ else none

def read (text : String) : Except InvalidText Ref :=
  match ofString? text with
  | some ref => .ok ref
  | none => .error (.ref text)

theorem ext_text {a b : Ref} (h : a.text = b.text) : a = b := by
  cases a; cases b; cases h; rfl

instance : Ord Ref := ⟨fun a b => compare a.text b.text⟩

theorem compare_eq (a b : Ref) : compare a b = compare a.text b.text := rfl

instance : Std.TransOrd Ref where
  eq_swap {a b} := by
    simp only [compare_eq]; exact Std.OrientedCmp.eq_swap
  isLE_trans {a b c} h₁ h₂ := by
    simp only [compare_eq] at *; exact Std.TransCmp.isLE_trans h₁ h₂

instance : Std.LawfulEqOrd Ref where
  compare_self {a} := by simp only [compare_eq]; exact Std.ReflCmp.compare_self
  eq_of_compare {a b} h := by
    simp only [compare_eq] at h; exact ext_text (Std.LawfulEqCmp.eq_of_compare h)

end Ref

end LateMarkup
