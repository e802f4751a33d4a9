import YdbSnippets.Python.Numbers
import YdbSnippets.Text.Search
import Mathlib.Data.List.DropRight

/-!
# Values of unknown shape

What the viewer scripts do with a value of a reply before they know its type:
they look for a key, print the value, or read a number from it.
-/

namespace YdbSnippets
namespace Python

open Text

section Lookups

/-- The value is this text. -/
def Json.isText (text : Str) : Json → Bool
  | .str s => s == text
  | _ => false

/-- `value.get(key, default)` -/
def Json.getOr (value : Json) (key : String) (default : Json) : Except BuiltinError Json :=
  match value with
  | .obj fields => .ok ((fields.lookup key).getD default)
  | _ => .error .attributeError

/-- `key in value` -/
def Json.contains (value : Json) (key : String) : Except BuiltinError Bool :=
  match value with
  | .obj fields => .ok (fields.lookup key).isSome
  | .arr items => .ok (items.any (Json.isText key.toList))
  | .str s => .ok (occurs key.toList s)
  | .null | .bool _ | .int _ | .float _ => .error .typeError

/-- `value is None` -/
def Json.isNone : Json → Bool
  | .null => true
  | _ => false

end Lookups

section Printing

/-- How the interpreter prints a list or a dictionary, and its `str.upper`. -/
structure Printer where
  repr : Json → Str
  upper : Str → Str

variable (py : Interpreter) (printer : Printer)

/-- `str(value)` -/
def Json.text : Json → Str
  | .null => "None".toList
  | .bool b => if b then "True".toList else "False".toList
  | .int n => printInt n
  | .float x => x.text
  | .str s => s
  | .arr items => printer.repr (.arr items)
  | .obj fields => printer.repr (.obj fields)

/-- `as_int` -/
def Json.asInt : Json → Except BuiltinError (Option Int)
  | .null | .bool _ => .ok none
  | .int n => .ok (some n)
  | .float x =>
      if x.isNaN then .ok none
      else
        match x.truncated with
        | some n => .ok (some n)
        | none => .error .overflowError
  | value => .ok (Python.asInt py (some (value.text printer)))

/-- `text.rsplit('.', 1)[-1]` -/
def afterLastDot (text : Str) : Str :=
  text.rtakeWhile (· != '.')

theorem afterLastDot_eq_iff
    {text name : Str} :
    afterLastDot text = name ↔
      ∃ before, text = before ++ name ∧ (before = [] ∨ before.getLast? = some '.') ∧
        '.' ∉ name := by
  constructor
  · rintro rfl
    refine ⟨text.rdropWhile (· != '.'), List.rdropWhile_append_rtakeWhile.symm, ?_, fun hdot => ?_⟩
    · refine or_iff_not_imp_left.mpr fun hne => ?_
      have hlast := List.rdropWhile_last_not (· != '.') text hne
      rw [List.getLast?_eq_some_getLast hne]
      simpa using hlast
    · simpa using List.mem_rtakeWhile_imp hdot
  · rintro ⟨before, rfl, hbefore, hname⟩
    have hall : ∀ c ∈ name, (c != '.') = true := by
      intro c hc
      refine bne_iff_ne.mpr ?_
      rintro rfl
      exact hname hc
    unfold afterLastDot
    rcases hbefore with rfl | hlast
    · exact List.rtakeWhile_eq_self_iff.mpr hall
    · obtain ⟨start, rfl⟩ := List.getLast?_eq_some_iff.mp hlast
      unfold List.rtakeWhile
      rw [List.reverse_append, List.takeWhile_append_of_pos (by simpa using hall)]
      simp

/-- `text.isdigit()` -/
def allDigits (text : Str) : Bool :=
  !text.isEmpty && text.all py.isDigit

end Printing

end Python
end YdbSnippets
