import ExactFormula.Json.Basic
import ExactFormula.Text.Digits

/-!
# Display settings

How formulas are shown, and the JSON form in which a host keeps these settings.
Settings are read strictly where a key is known and leniently elsewhere.
-/

namespace ExactFormula

/-- How numbers without a short exact decimal are written. -/
inductive NumberFormat
  /-- With this many decimal places; every finite decimal is written exactly. -/
  | decimal (places : Nat)
  /-- With this many significant figures; a decimal that needs no more is written exactly. -/
  | sigfigs (figures : Nat)
  deriving DecidableEq, Repr

/-- How formulas are shown. -/
structure Settings where
  /-- Show constants by their numbers and outputs by what they wrap. -/
  expand : Bool := false
  /-- The format of numbers. -/
  format : NumberFormat := .decimal 10
  deriving DecidableEq, Repr

namespace NumberFormat

/-- The largest precision of a format. -/
def largestPrecision : Nat := 0xFFFFFFFF

/-- A format with a key as it stands in JSON. -/
def ofKey? (key : String) (precision : Nat) : Option NumberFormat :=
  match key with
  | "decimal" => some (.decimal precision)
  | "sigfigs" => some (.sigfigs precision)
  | _ => none

/-- Read a format: an object with one member, whose value is a precision in digits alone. -/
def ofJson? : Json → Option NumberFormat
  | .object [(spelling, value)] => do
      let key ← Json.decode? spelling
      let digits ← value.natural?
      let precision := Digits.toNat digits
      if precision ≤ largestPrecision then ofKey? (String.ofList key) precision else none
  | _ => none

/-- The JSON text of a format. -/
def jsonText : NumberFormat → String
  | decimal places => "\x7b\"decimal\":" ++ Digits.text places ++ "\x7d"
  | sigfigs figures => "\x7b\"sigfigs\":" ++ Digits.text figures ++ "\x7d"

end NumberFormat

namespace Settings

/-- Read a truth value. -/
def readExpand? : Json → Option Bool
  | .boolean value => some value
  | _ => none

/-- The members of an object with their keys as texts. -/
def members? (members : List (List Char × Json)) : Option (List (String × Json)) :=
  members.mapM fun member => (Json.decode? member.1).map fun key => (String.ofList key, member.2)

/-- Read the member of a key; it may be missing but not repeated. -/
def field?
    {α : Type}
    (members : List (String × Json))
    (key : String)
    (read : Json → Option α)
    (missing : α) :
    Option α :=
  match members.filter (·.1 = key) with
  | [] => some missing
  | [member] => read member.2
  | _ => none

/--
Read settings: an object, whose unknown members are passed over, or an array of
the two settings in order, which may break off early.
-/
def ofJson? : Json → Option Settings
  | .object members => do
      let members ← members? members
      let default : Settings := {}
      let expand ← field? members "expand" readExpand? default.expand
      let format ← field? members "number_format" NumberFormat.ofJson? default.format
      pure { expand, format }
  | .array [] => some {}
  | .array [expand] => do
      pure { expand := ← readExpand? expand }
  | .array [expand, format] => do
      pure { expand := ← readExpand? expand, format := ← NumberFormat.ofJson? format }
  | _ => none

/-- Read settings from a JSON text. -/
def read? (text : String) : Option Settings := do
  ofJson? (← Json.parse? text.toList)

/-- The JSON text of settings. -/
def jsonText (settings : Settings) : String :=
  "\x7b\"expand\":" ++ (if settings.expand then "true" else "false") ++
    ",\"number_format\":" ++ settings.format.jsonText ++ "\x7d"

end Settings
end ExactFormula
