import RTree.Decimal
import RTree.Json

namespace RTree.Json

def skipBlanks (cs : List Char) : List Char :=
  cs.dropWhile fun c => c == ' ' || c == '\t' || c == '\n' || c == '\r'

/-- A string read so far, last character first. -/
structure Spelling where
  letters : List Char := []
  /-- The first half of a surrogate pair, when the second is due. -/
  half : Option Nat := none
  /-- Whether all halves have found each other. -/
  sound : Bool := true

namespace Spelling

/-- The spelling before a character other than the second half of a pair. -/
def settle (s : Spelling) : Spelling := { s with half := none, sound := s.sound && s.half.isNone }

def letter (s : Spelling) (c : Char) : Spelling :=
  let s := s.settle
  { s with letters := c :: s.letters }

def unit (s : Spelling) (u : Nat) : Spelling :=
  if 0xd800 ≤ u && u < 0xdc00 then { s.settle with half := some u }
  else if 0xdc00 ≤ u && u < 0xe000 then
    match s.half with
    | some h =>
      let c := Char.ofNat (0x10000 + (h - 0xd800) * 0x400 + (u - 0xdc00))
      { s with letters := c :: s.letters, half := none }
    | none => { s with sound := false }
  else s.letter (Char.ofNat u)

def finish (s : Spelling) : Option String :=
  let s := s.settle
  if s.sound then some (String.ofList s.letters.reverse) else none

end Spelling

def hexDigit? (c : Char) : Option Nat :=
  if '0' ≤ c && c ≤ '9' then some (c.toNat - '0'.toNat)
  else if 'a' ≤ c && c ≤ 'f' then some (c.toNat - 'a'.toNat + 10)
  else if 'A' ≤ c && c ≤ 'F' then some (c.toNat - 'A'.toNat + 10)
  else none

def hexUnit? (a b c d : Char) : Option Nat := do
  return (((← hexDigit? a) * 16 + (← hexDigit? b)) * 16 + (← hexDigit? c)) * 16 + (← hexDigit? d)

def escaped? : Char → Option Char
  | '"' => some '"'
  | '\\' => some '\\'
  | '/' => some '/'
  | 'b' => some '\x08'
  | 'f' => some '\x0c'
  | 'n' => some '\n'
  | 'r' => some '\r'
  | 't' => some '\t'
  | _ => none

/-- The rest of a string after its opening quote, and what follows the closing one. -/
def stringRest (s : Spelling) : List Char → Option (Option String × List Char)
  | [] => none
  | '"' :: rest => some (s.finish, rest)
  | '\\' :: 'u' :: a :: b :: c :: d :: rest =>
    match hexUnit? a b c d with
    | some u => stringRest (s.unit u) rest
    | none => none
  | '\\' :: e :: rest =>
    match escaped? e with
    | some c => stringRest (s.letter c) rest
    | none => none
  | c :: rest => if c.toNat < 0x20 || c == '\\' then none else stringRest (s.letter c) rest

def isDigit (c : Char) : Bool := '0' ≤ c && c ≤ '9'

def digitsValue (ds : List Char) : Nat := ds.foldl (fun n c => 10 * n + (c.toNat - '0'.toNat)) 0

/-- The digits at the front, of which there must be some, and what follows. -/
def digits? (cs : List Char) : Option (List Char × List Char) :=
  match cs.takeWhile isDigit with
  | [] => none
  | ds => some (ds, cs.dropWhile isDigit)

def fraction? : List Char → Option (List Char × List Char)
  | '.' :: cs => digits? cs
  | cs => some ([], cs)

def exponent? : List Char → Option (Option Int × List Char)
  | c :: cs =>
    if c == 'e' || c == 'E' then
      match cs with
      | '-' :: cs => (digits? cs).map fun (ds, rest) => (some (-Int.ofNat (digitsValue ds)), rest)
      | '+' :: cs => (digits? cs).map fun (ds, rest) => (some (Int.ofNat (digitsValue ds)), rest)
      | cs => (digits? cs).map fun (ds, rest) => (some (Int.ofNat (digitsValue ds)), rest)
    else some (none, c :: cs)
  | [] => some (none, [])

/-- A number without its sign. Digits alone are a whole number while it fits in 64 bits. -/
def unsigned? (negative : Bool) (cs : List Char) : Option (Json × List Char) := do
  let (whole, cs) ← digits? cs
  if whole.length > 1 && whole.head? == some '0' then none
  else
    let (fraction, cs) ← fraction? cs
    let (exponent, cs) ← exponent? cs
    let digits := digitsValue (whole ++ fraction)
    if !negative && fraction.isEmpty && exponent.isNone && digits < Nat.pow 2 64 then
      some (integer digits, cs)
    else
      let x := Decimal.nearest ⟨digits, exponent.getD 0 - Int.ofNat fraction.length⟩
      some (number (if negative then -x else x), cs)

def number? : List Char → Option (Json × List Char)
  | '-' :: cs => unsigned? true cs
  | cs => unsigned? false cs

mutual

/-- A value and what follows it; each nested value and each further item uses up some `fuel`. -/
def value? : Nat → List Char → Option (Json × List Char)
  | 0, _ => none
  | fuel + 1, cs =>
    match skipBlanks cs with
    | 'n' :: 'u' :: 'l' :: 'l' :: rest => some (null, rest)
    | 't' :: 'r' :: 'u' :: 'e' :: rest => some (bool true, rest)
    | 'f' :: 'a' :: 'l' :: 's' :: 'e' :: rest => some (bool false, rest)
    | '"' :: rest => (stringRest {} rest).map fun (s, rest) => (string s, rest)
    | '[' :: rest =>
      match skipBlanks rest with
      | ']' :: rest => some (array [], rest)
      | rest => items? fuel [] rest
    | '{' :: rest =>
      match skipBlanks rest with
      | '}' :: rest => some (object [], rest)
      | rest => members? fuel [] rest
    | cs => number? cs

/-- The items of an array from one of them on; `done` holds the earlier ones, the last first. -/
def items? : Nat → List Json → List Char → Option (Json × List Char)
  | 0, _, _ => none
  | fuel + 1, done, cs =>
    match value? fuel cs with
    | none => none
    | some (v, rest) =>
      match skipBlanks rest with
      | ',' :: rest => items? fuel (v :: done) rest
      | ']' :: rest => some (array (v :: done).reverse, rest)
      | _ => none

def members? : Nat → List (Option String × Json) → List Char → Option (Json × List Char)
  | 0, _, _ => none
  | fuel + 1, done, cs =>
    match skipBlanks cs with
    | '"' :: rest =>
      match stringRest {} rest with
      | none => none
      | some (name, rest) =>
        match skipBlanks rest with
        | ':' :: rest =>
          match value? fuel rest with
          | none => none
          | some (v, rest) =>
            match skipBlanks rest with
            | ',' :: rest => members? fuel ((name, v) :: done) rest
            | '}' :: rest => some (object ((name, v) :: done).reverse, rest)
            | _ => none
        | _ => none
    | _ => none

end

/-- The value that a text spells. Each step takes up fuel twice at most for each character read. -/
def parse? (text : String) : Option Json :=
  let cs := text.toList
  match value? (2 * cs.length + 2) cs with
  | some (v, rest) => if (skipBlanks rest).isEmpty then some v else none
  | none => none

end RTree.Json
