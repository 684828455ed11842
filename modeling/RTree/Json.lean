
namespace RTree

/-- Whole numbers below `2 ^ 64` that are written with digits alone are kept apart from all other
numbers, since only they are taken for counts. A string is `none` when its escapes leave half of a
surrogate pair alone, so that it spells no text; an object keeps its fields in the order written,
repeated ones too. -/
inductive Json where
  | null
  | bool (b : Bool)
  | integer (n : Nat)
  | number (x : Float)
  | string (s : Option String)
  | array (items : List Json)
  | object (fields : List (Option String × Json))

namespace Json

def record (fields : List (String × Json)) : Json :=
  object (fields.map fun (name, v) => (some name, v))

def text (s : String) : Json := string (some s)

/-- A floating-point number; JSON has no infinities and writes null for what is not finite. -/
def ofFloat (x : Float) : Json := if x.isFinite then number x else null

def nat? : Json → Option Nat
  | integer n => some n
  | _ => none

/-- Any number; one too large to be finite is refused. -/
def float? : Json → Option Float
  | integer n => some (Float.ofNat n)
  | number x => if x.isFinite then some x else none
  | _ => none

def bool? : Json → Option Bool
  | bool b => some b
  | _ => none

def list? {β : Type} (item? : Json → Option β) : Json → Option (List β)
  | array items => items.mapM item?
  | _ => none

/-- The fields of a record, each `none` when missing: an object names them in any order, and names
no known one twice; an array lists them in the order of `names`. -/
def fields? (names : List String) : Json → Option (List (Option Json))
  | object fields =>
    if fields.all (·.1.isSome) && names.all (fun name => fields.countP (·.1 == some name) ≤ 1) then
      some (names.map fun name => fields.lookup (some name))
    else none
  | array items =>
    if items.length ≤ names.length then
      some (items.map some ++ List.replicate (names.length - items.length) none)
    else none
  | _ => none

/-- One of several named alternatives: the name alone, or an object with that name as its only
field and null as the value. -/
def variant? {β : Type} (table : List (String × β)) : Json → Option β
  | string (some name) => table.lookup name
  | object [(some name, null)] => table.lookup name
  | _ => none

end Json

end RTree
