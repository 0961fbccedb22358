import Mathlib.Data.List.Sort
import Mathlib.Data.Rat.Cast.Order
import Mathlib.Tactic.Common

/-!
# JSON values

JSON values and the ways of a dynamically typed library to read them: typed access raises
an exception on a value of another type, and a default stands in for a missing key. Numbers
are exact rationals. Text is left out: printing a value and parsing it again is taken to
give it back.

## Main definitions

* `Json.value` — an object's field, or a default.
* `Json.get?`, `Json.atKey` — an object's field, if it is there.
* `Json.index` — an object's field, or null; `Json.constIndex` for a value that is only read.
* `Json.elements` — what a loop over a value visits.
-/

theorem Except.bind_eq_ok.{u, v} {ε : Type u} {α β : Type v} {x : Except ε α}
    {f : α → Except ε β} {b : β} : x >>= f = .ok b ↔ ∃ a, x = .ok a ∧ f a = .ok b := by
  cases x with
  | error err => simp [bind, Except.bind]
  | ok a => simp [bind, Except.bind]

/-- A JSON value. -/
inductive Json where
  | null
  | bool (b : Bool)
  | num (q : ℚ)
  | str (s : String)
  | arr (items : List Json)
  | obj (fields : List (String × Json))

namespace Json

/-- Read a string. -/
def getString : Json → Except String String
  | str s => .ok s
  | _ => .error "type_error.302: type must be string"

/-- Read a floating point number. -/
def getDouble : Json → Except String ℚ
  | num q => .ok q
  | _ => .error "type_error.302: type must be number"

/-- Read an integer: a number is cut off towards zero, and a truth value counts as one. -/
def getInt : Json → Except String ℤ
  | num q => .ok (q.num.tdiv q.den)
  | bool b => .ok (if b then 1 else 0)
  | _ => .error "type_error.302: type must be number"

/-- The field of an object under a key, or a default without that key. -/
def value {α : Type*} (get : Json → Except String α) (j : Json) (key : String) (default : α) :
    Except String α :=
  match j with
  | obj fields =>
    match fields.lookup key with
    | none => .ok default
    | some v => get v
  | _ => .error "type_error.306: cannot use value()"

/-- The field of an object under a key, or null; on null this is null too. -/
def index (j : Json) (key : String) : Except String Json :=
  match j with
  | null => .ok null
  | obj fields => .ok ((fields.lookup key).getD null)
  | _ => .error "type_error.305: cannot use operator[]"

/-- The field of an object that is only read. A missing key is undefined behaviour, for which
there is no result. -/
def constIndex (j : Json) (key : String) : Option (Except String Json) :=
  match j with
  | obj fields => (fields.lookup key).map .ok
  | _ => some (.error "type_error.305: cannot use operator[]")

/-- The field of an object, if `contains` says that there is one. -/
def get? (j : Json) (key : String) : Option Json :=
  match j with
  | obj fields => fields.lookup key
  | _ => none

/-- The field of an object that must be there. -/
def atKey (j : Json) (key : String) : Except String Json :=
  match j with
  | obj fields =>
    match fields.lookup key with
    | some v => .ok v
    | none => .error "out_of_range.403: key not found"
  | _ => .error "type_error.304: cannot use at()"

/-- The elements a loop over a value visits: the fields of an object by their keys, and a value
that is no container itself. -/
def elements : Json → List Json
  | null => []
  | arr items => items
  | obj fields => (fields.insertionSort fun f g => f.1 ≤ g.1).map Prod.snd
  | j => [j]

variable {α : Type*} {get : Json → Except String α} {fields : List (String × Json)}
  {key : String} {j v : Json}

@[simp] theorem getString_str (s : String) : getString (str s) = .ok s := rfl

@[simp] theorem getDouble_num (q : ℚ) : getDouble (num q) = .ok q := rfl

@[simp] theorem getInt_intCast (z : ℤ) : getInt (num z) = .ok z := by
  simp [getInt]

theorem atKey_eq_ok : atKey j key = .ok v ↔ get? j key = some v := by
  cases j with
  | obj fields => cases h : fields.lookup key <;> simp [atKey, get?, h]
  | _ => simp [atKey, get?]

theorem getString_eq_ok {s : String} : getString v = .ok s ↔ v = str s := by
  cases v <;> simp [getString]

theorem getDouble_eq_ok {q : ℚ} : getDouble v = .ok q ↔ v = num q := by
  cases v <;> simp [getDouble]

theorem value_of_get? (h : get? j key = some v) (default : α) :
    value get j key default = get v := by
  cases j with
  | obj fields =>
    have hlookup : fields.lookup key = some v := h
    simp [value, hlookup]
  | _ => cases h

/-- A number with a default, read from a value that has some field. -/
theorem value_getDouble_eq_ok {key' : String} (h : get? j key' = some v) {q q' : ℚ} :
    value getDouble j key q' = .ok q ↔ (get? j key).getD (num q') = num q := by
  cases j with
  | obj fields =>
    cases hlookup : fields.lookup key with
    | none => simp [value, get?, hlookup]
    | some v => simp [value, get?, hlookup, getDouble_eq_ok]
  | _ => cases h

/-- A word with the empty one as default. -/
theorem value_getString_eq_ok {s : String} (hs : s ≠ "") :
    value getString j key "" = .ok s ↔ get? j key = some (str s) := by
  cases j with
  | obj fields =>
    cases hlookup : fields.lookup key with
    | none => simp [value, get?, hlookup, Ne.symm hs]
    | some v => simp [value, get?, hlookup, getString_eq_ok]
  | _ => simp [value, get?]

/-- Reading back a field that was written first. -/
@[simp] theorem value_cons_self (default : α) :
    value get (obj ((key, v) :: fields)) key default = get v := by
  simp [value]

/-- Fields under other keys are passed over. -/
theorem value_cons_of_ne {key' : String} (h : key ≠ key') (default : α) :
    value get (obj ((key', v) :: fields)) key default = value get (obj fields) key default := by
  have hbeq : (key == key') = false := beq_eq_false_iff_ne.mpr h
  simp [value, List.lookup_cons, hbeq]

@[simp] theorem index_cons_self : index (obj ((key, v) :: fields)) key = .ok v := by
  simp [index]

theorem index_cons_of_ne {key' : String} (h : key ≠ key') :
    index (obj ((key', v) :: fields)) key = index (obj fields) key := by
  have hbeq : (key == key') = false := beq_eq_false_iff_ne.mpr h
  simp [index, List.lookup_cons, hbeq]

end Json
