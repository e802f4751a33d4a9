import Mathlib.Data.List.Basic

/-!
# JSON values as Python reads them

`response.json()` gives dictionaries, lists, strings, numbers, booleans and
`None`.  The scripts look fields up with `get`, test values for truth and
iterate over whatever they find, so a reply of an unexpected shape raises an
exception at the place where Python would raise it.
-/

namespace YdbSnippets
namespace Python

/-- Strings are lists of characters: the scripts index, split and compare
them character by character. -/
abbrev Str := List Char

/-- What can be known of a `float` without floating-point arithmetic: the text
`str` prints, whether it is zero, whether it is a NaN, and the integer that
`int` truncates it to (none for a NaN or an infinity). -/
structure Float where
  text : Str
  isZero : Bool
  isNaN : Bool
  truncated : Option Int
deriving DecidableEq, Repr

/-- A value of `response.json()`. -/
inductive Json
  | null
  | bool (b : Bool)
  | int (n : Int)
  | float (x : Float)
  | str (s : Str)
  | arr (items : List Json)
  | obj (fields : List (String × Json))
deriving Repr

/-- Exceptions of the built-in operations the scripts use on replies. -/
inductive BuiltinError
  | attributeError
  | typeError
  | valueError
  | overflowError
deriving DecidableEq, Repr

namespace Json

/-- `bool(value)`. -/
def truthy : Json → Bool
  | null => false
  | bool b => b
  | int n => n != 0
  | float x => !x.isZero
  | str s => !s.isEmpty
  | arr items => !items.isEmpty
  | obj fields => !fields.isEmpty

/-- `isinstance(value, dict)`. -/
def isDict : Json → Bool
  | obj _ => true
  | _ => false

/-- `value or default`. -/
def orElse (value default : Json) : Json :=
  if value.truthy then value else default

/-- The empty dictionary and the empty list. -/
def emptyObj : Json := obj []

@[inherit_doc emptyObj] def emptyArr : Json := arr []

/-- `value.get(key)`: a missing key reads as `None`, and a value that is not a
dictionary has no `get`. -/
def get (value : Json) (key : String) : Except BuiltinError Json :=
  match value with
  | obj fields => .ok ((fields.lookup key).getD null)
  | _ => .error .attributeError

/-- `key in value` for a dictionary. -/
def hasKey (value : Json) (key : String) : Bool :=
  match value with
  | obj fields => (fields.lookup key).isSome
  | _ => false

/-- `for item in value`. -/
def iterate : Json → Except BuiltinError (List Json)
  | arr items => .ok items
  | obj fields => .ok (fields.map fun field => str field.1.toList)
  | str s => .ok (s.map fun c => str [c])
  | _ => .error .typeError

/-- `value == 0`. -/
def equalsZero : Json → Bool
  | int n => n == 0
  | bool b => !b
  | float x => x.isZero
  | _ => false

@[simp] theorem get_obj
    (fields : List (String × Json)) (key : String) :
    (obj fields).get key = .ok ((fields.lookup key).getD null) := rfl

@[simp] theorem truthy_obj
    (fields : List (String × Json)) :
    (obj fields).truthy = !fields.isEmpty := rfl

@[simp] theorem truthy_arr
    (items : List Json) :
    (arr items).truthy = !items.isEmpty := rfl

@[simp] theorem truthy_null : null.truthy = false := rfl

@[simp] theorem orElse_null (default : Json) :
    null.orElse default = default := rfl

/-- A key with a true value is in the dictionary. -/
theorem hasKey_of_truthy
    {value found : Json} {key : String}
    (hget : value.get key = .ok found) (htrue : found.truthy = true) :
    value.hasKey key = true := by
  cases value with
  | obj fields =>
      rw [get_obj] at hget
      cases hlookup : fields.lookup key with
      | none =>
          rw [hlookup] at hget
          cases hget
          cases htrue
      | some v => simp [hasKey, hlookup]
  | null | bool _ | int _ | float _ | str _ | arr _ => cases hget

/-- An empty list and an empty dictionary are false, so `or` replaces them by
an empty default of the same kind. -/
@[simp] theorem orElse_emptyArr (items : List Json) :
    (arr items).orElse emptyArr = arr items := by
  cases items <;> rfl

@[simp] theorem orElse_emptyObj (fields : List (String × Json)) :
    (obj fields).orElse emptyObj = obj fields := by
  cases fields <;> rfl

end Json

end Python
end YdbSnippets
