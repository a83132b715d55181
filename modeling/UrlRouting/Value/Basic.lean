import UrlRouting.Decimal.Binary64

/-!
# Values

What a parameter holds and what an action answers: a JSON value. Integers and binary
floating-point numbers are kept apart, `1` and `1.0` being different values, and the fields of an
object are kept in ascending order of their names, without repetition, so that walking an object
and writing it always go the same way.

* `UrlRouting.Value.ofFields` – the object with the given fields, sorted; of two fields with one
  name the later one stays;
* `UrlRouting.Value.same` – equality of values, in which the two zeros of the floating-point numbers
  are one;
* `UrlRouting.Value.isVoid` – the values that count as not given: null and the empty text.
-/

namespace UrlRouting

/-- A JSON value. -/
inductive Value where
  /-- Nothing. -/
  | null
  /-- A truth value. -/
  | bool (b : Bool)
  /-- An integer, from `-2^63` to `2^64 - 1` where it was read. -/
  | int (n : Int)
  /-- A floating-point number. -/
  | double (x : Binary64)
  /-- A text. -/
  | str (s : String)
  /-- A list. -/
  | arr (items : List Value)
  /-- Named fields, in ascending order of the names. -/
  | obj (fields : List (String × Value))
  deriving Repr

namespace Value

instance : Inhabited Value := ⟨.null⟩

/-! ### Objects -/

/-- Puts a field into its place among sorted fields, instead of one with the same name. -/
def insertField (name : String) (v : Value) : List (String × Value) → List (String × Value)
  | [] => [(name, v)]
  | (other, w) :: rest =>
    if name = other then (name, v) :: rest
    else if name < other then (name, v) :: (other, w) :: rest
    else (other, w) :: insertField name v rest

/-- The object with the given fields; of two with one name the later one stays. -/
def ofFields (fields : List (String × Value)) : Value :=
  .obj (fields.foldl (fun sorted f => insertField f.1 f.2 sorted) [])

/-- The field of an object; other values have none. -/
def field? (name : String) : Value → Option Value
  | .obj fields => fields.lookup name
  | _ => none

/-! ### Null and empty -/

/-- Is it null? -/
def isNull : Value → Bool
  | .null => true
  | _ => false

/-- Does the value count as not given? Null and the empty text do. -/
def isVoid : Value → Bool
  | .null => true
  | .str s => s.isEmpty
  | _ => false

/-! ### Equality -/

mutual

/-- Are two values equal? An integer never equals a floating-point number; floating-point numbers
are compared by value. -/
def same : Value → Value → Bool
  | .null, .null => true
  | .bool a, .bool b => a == b
  | .int a, .int b => a == b
  | .double a, .double b => a.sameValue b
  | .str a, .str b => a == b
  | .arr a, .arr b => sameItems a b
  | .obj a, .obj b => sameFields a b
  | _, _ => false

/-- Are two lists equal, item by item? -/
def sameItems : List Value → List Value → Bool
  | [], [] => true
  | a :: as, b :: bs => same a b && sameItems as bs
  | _, _ => false

/-- Are two lists of fields equal, field by field? -/
def sameFields : List (String × Value) → List (String × Value) → Bool
  | [], [] => true
  | (m, a) :: as, (n, b) :: bs => m == n && same a b && sameFields as bs
  | _, _ => false

end

end Value

end UrlRouting
