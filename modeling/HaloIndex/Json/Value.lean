import HaloIndex.Wire.Hex

namespace HaloIndex.Json

/-- A JSON value. A number is kept if it is written as a natural number, and a string if its
escapes make sense. -/
inductive Value where
  | null
  | bool (b : Bool)
  | number (natural : Option Nat)
  | string (text : Option String)
  | array (items : List Value)
  | object (members : List (Option String × Value))

/-- A reader takes something from the front of a text, or refuses it. -/
abbrev Reader (α : Type) := List Char → Option (α × List Char)

def isBlank (c : Char) : Bool := c == ' ' || c == '\t' || c == '\n' || c == '\r'

def skipBlanks (cs : List Char) : List Char := cs.dropWhile isBlank

def word (w : String) : Reader Unit := fun cs =>
  let letters := w.toList
  if letters.isPrefixOf cs then some ((), cs.drop letters.length) else none

def natural (digits : List Char) : Nat :=
  digits.foldl (fun n d => 10 * n + (d.toNat - '0'.toNat)) 0

def digits : Reader (List Char) := fun cs =>
  let (found, rest) := cs.span Char.isDigit
  if found.isEmpty then none else some (found, rest)

def fraction : Reader Bool
  | '.' :: cs => (digits cs).map fun (_, rest) => (true, rest)
  | cs => some (false, cs)

def exponent : Reader Bool
  | e :: cs =>
    if e == 'e' || e == 'E' then
      let unsigned := match cs with
        | sign :: rest => if sign == '+' || sign == '-' then rest else cs
        | [] => []
      (digits unsigned).map fun (_, rest) => (true, rest)
    else some (false, e :: cs)
  | [] => some (false, [])

def unsignedNumber : Reader (Option Nat) := fun cs => do
  let (whole, cs) ← digits cs
  if whole.head? = some '0' ∧ whole.length ≠ 1 then none
  let (hasFraction, cs) ← fraction cs
  let (hasExponent, cs) ← exponent cs
  return (if hasFraction || hasExponent then none else some (natural whole), cs)

/-- Take a number. One with a sign does not count as natural. -/
def number : Reader (Option Nat)
  | '-' :: cs => (unsignedNumber cs).map fun (_, rest) => (none, rest)
  | cs => unsignedNumber cs

def shortEscape : Char → Option Char
  | '"' => some '"'
  | '\\' => some '\\'
  | '/' => some '/'
  | 'b' => some '\x08'
  | 'f' => some '\x0c'
  | 'n' => some '\n'
  | 'r' => some '\r'
  | 't' => some '\t'
  | _ => none

/-- Take the rest of a string, up to its closing quote: the codes of its characters, where a long
escape gives one 16-bit unit. -/
def stringBody : Reader (List Nat)
  | [] => none
  | '"' :: rest => some ([], rest)
  | '\\' :: 'u' :: a :: b :: c :: d :: rest => do
    let unit := 4096 * (← Hex.digit? a) + 256 * (← Hex.digit? b) + 16 * (← Hex.digit? c) +
      (← Hex.digit? d)
    let (others, rest) ← stringBody rest
    return (unit :: others, rest)
  | '\\' :: letter :: rest => do
    let meant ← shortEscape letter
    let (others, rest) ← stringBody rest
    return (meant.toNat :: others, rest)
  | c :: rest => do
    if c.toNat < 0x20 then none
    let (others, rest) ← stringBody rest
    return (c.toNat :: others, rest)

/-- The characters with the given codes. A high surrogate must be followed by a low one, and a
low one must follow a high one. -/
def assemble : List Nat → Option (List Char)
  | [] => some []
  | [unit] => if 0xD800 ≤ unit ∧ unit ≤ 0xDFFF then none else some [Char.ofNat unit]
  | unit :: next :: rest =>
    if 0xD800 ≤ unit ∧ unit ≤ 0xDBFF then
      if 0xDC00 ≤ next ∧ next ≤ 0xDFFF then
        (assemble rest).map
          (Char.ofNat (0x10000 + 1024 * (unit - 0xD800) + (next - 0xDC00)) :: ·)
      else none
    else if 0xDC00 ≤ unit ∧ unit ≤ 0xDFFF then none
    else (assemble (next :: rest)).map (Char.ofNat unit :: ·)

def string : Reader (Option String)
  | '"' :: cs =>
    (stringBody cs).map fun (units, rest) => ((assemble units).map String.ofList, rest)
  | _ => none

def items {α : Type} (item : Reader α) (close : Char) : Nat → Reader (List α)
  | 0, _ => none
  | fuel + 1, cs => do
    let (first, cs) ← item cs
    match skipBlanks cs with
    | [] => none
    | c :: cs =>
      if c == close then return ([first], cs)
      else if c == ',' then
        let (others, cs) ← items item close fuel cs
        return (first :: others, cs)
      else none

def itemsOrNone {α : Type} (item : Reader α) (close : Char) (fuel : Nat) :
    Reader (List α) := fun cs =>
  match skipBlanks cs with
  | [] => none
  | c :: rest => if c == close then some ([], rest) else items item close fuel cs

def member (value : Reader Value) : Reader (Option String × Value) := fun cs => do
  let (name, cs) ← string (skipBlanks cs)
  match skipBlanks cs with
  | ':' :: cs =>
    let (v, cs) ← value cs
    return ((name, v), cs)
  | _ => none

/-- Take a value that is nested less deep than `fuel`. -/
def value : (fuel : Nat) → Reader Value
  | 0, _ => none
  | fuel + 1, cs =>
    match skipBlanks cs with
    | [] => none
    | '"' :: rest => (string ('"' :: rest)).map fun (text, rest) => (.string text, rest)
    | '[' :: rest =>
      (itemsOrNone (value fuel) ']' fuel rest).map fun (found, rest) => (.array found, rest)
    | '\x7b' :: rest =>
      (itemsOrNone (member (value fuel)) '\x7d' fuel rest).map fun (found, rest) =>
        (.object found, rest)
    | 'n' :: rest => (word "null" ('n' :: rest)).map fun (_, rest) => (.null, rest)
    | 't' :: rest => (word "true" ('t' :: rest)).map fun (_, rest) => (.bool true, rest)
    | 'f' :: rest => (word "false" ('f' :: rest)).map fun (_, rest) => (.bool false, rest)
    | other => (number other).map fun (n, rest) => (.number n, rest)

def Value.ofText? (text : String) : Option Value :=
  let cs := text.toList
  match value (cs.length + 1) cs with
  | some (v, rest) => if (skipBlanks rest).isEmpty then some v else none
  | none => none

end HaloIndex.Json
