import HaloIndex.Json.Value

namespace HaloIndex.Json

namespace Value

def bool? : Value → Option Bool
  | .bool b => some b
  | _ => none

def natBelow? (bound : Nat) : Value → Option Nat
  | .number (some n) => if n < bound then some n else none
  | _ => none

def nat? : Value → Option Nat := natBelow? UInt64.size

/-- One of several named choices: its name, or an object that gives the name with nothing. -/
def choice? {α : Type} (choices : List α) (name : α → String) (v : Value) : Option α :=
  let named (text : String) : Option α := choices.find? (name · == text)
  match v with
  | .string (some text) => named text
  | .object [(some text, .null)] => named text
  | _ => none

def items? (count : Nat) : Value → Option (List Value)
  | .array items => if items.length = count then some items else none
  | _ => none

/-- The value of a field among the members of an object; a field given twice is refused. -/
def field? (members : List (Option String × Value)) (name : String) : Option (Option Value) :=
  match members.filter (·.1 == some name) with
  | [] => some none
  | [m] => some (some m.2)
  | _ => none

def fields? (names : List String) : Value → Option (List (Option Value))
  | .object members =>
    if members.all (·.1.isSome) then names.mapM (field? members) else none
  | .array items =>
    if items.length ≤ names.length then
      some (items.map some ++ List.replicate (names.length - items.length) none)
    else none
  | _ => none

end Value

def required {α : Type} (read : Value → Option α) (given : Option Value) : Option α :=
  given.bind read

def optional {α : Type} (fallback : α) (read : Value → Option α) : Option Value → Option α
  | some v => read v
  | none => some fallback

def quoted (text : String) : String := "\"" ++ text ++ "\""

def objectText (members : List (String × String)) : String :=
  "\x7b" ++ ",".intercalate (members.map fun m => quoted m.1 ++ ":" ++ m.2) ++ "\x7d"

def arrayText (items : List String) : String := "[" ++ ",".intercalate items ++ "]"

end HaloIndex.Json
