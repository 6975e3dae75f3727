import ExactFormula.Json.Token

/-!
# JSON values

A value is built from tokens with a stack of the arrays and objects that are
open, so that it may be nested to any depth.  Members of an object keep their
order and may repeat a key.
-/

namespace ExactFormula

/-- A JSON value. -/
inductive Json
  /-- The value `null`. -/
  | null
  /-- A truth value. -/
  | boolean (value : Bool)
  /-- A number, as it is spelled. -/
  | number (spelling : List Char)
  /-- A string, as it is spelled. -/
  | string (spelling : List Char)
  /-- An array. -/
  | array (items : List Json)
  /-- An object; the keys are as they are spelled. -/
  | object (members : List (List Char × Json))

namespace Json

/-- An array or object that is open, with its contents so far, the latest first. -/
inductive Open
  /-- An open array. -/
  | array (items : List Json)
  /-- An open object, and the key that was read last. -/
  | object (members : List (List Char × Json)) (key : List Char)

/-- What the next token must be. -/
inductive Expected
  /-- A value, or the end of the array that has just been opened. -/
  | value (mayClose : Bool)
  /-- A key, or the end of the object that has just been opened. -/
  | key (mayClose : Bool)
  /-- The colon after a key. -/
  | colon
  /-- A comma or the end of what is open. -/
  | separator
  /-- Nothing, for the value is complete. -/
  | nothing (result : Json)

/-- What is open, the innermost first, and what is expected there. -/
abbrev Progress := Expected × List Open

/-- Put a complete value into what is open. -/
def complete (value : Json) : List Open → Progress
  | [] => (.nothing value, [])
  | .array items :: outer => (.separator, .array (value :: items) :: outer)
  | .object members key :: outer => (.separator, .object ((key, value) :: members) key :: outer)

/-- Go on by one token. -/
def advance? : Progress → Token → Option Progress
  | (.value _, stack), .null => some (complete .null stack)
  | (.value _, stack), .boolean value => some (complete (.boolean value) stack)
  | (.value _, stack), .number spelling => some (complete (.number spelling) stack)
  | (.value _, stack), .string spelling => some (complete (.string spelling) stack)
  | (.value _, stack), .openArray => some (.value true, .array [] :: stack)
  | (.value _, stack), .openObject => some (.key true, .object [] [] :: stack)
  | (.value true, .array _ :: outer), .closeArray => some (complete (.array []) outer)
  | (.key _, .object members _ :: outer), .string key =>
      some (.colon, .object members key :: outer)
  | (.key true, .object _ _ :: outer), .closeObject => some (complete (.object []) outer)
  | (.colon, stack), .colon => some (.value false, stack)
  | (.separator, .array items :: outer), .comma => some (.value false, .array items :: outer)
  | (.separator, .array items :: outer), .closeArray =>
      some (complete (.array items.reverse) outer)
  | (.separator, .object members key :: outer), .comma =>
      some (.key false, .object members key :: outer)
  | (.separator, .object members _ :: outer), .closeObject =>
      some (complete (.object members.reverse) outer)
  | _, _ => none

/-- The value that a text writes, if it writes exactly one. -/
def parse? (text : List Char) : Option Json := do
  let tokens ← tokens? text
  match ← tokens.foldlM advance? (.value false, []) with
  | (.nothing result, _) => some result
  | _ => none

/-! ## The meaning of strings -/

/-- The number that four hexadecimal digits write. -/
def hexUnit (a b c d : Char) : Nat :=
  [a, b, c, d].foldl (fun value digit => 16 * value + (hexDigit? digit).getD 0) 0

/-- The code point of a pair of surrogates. -/
def surrogatePair (high low : Nat) : Nat :=
  0x10000 + (high - 0xD800) * 0x400 + (low - 0xDC00)

/--
The characters that a spelling stands for.  An escape of a surrogate must be
followed by its partner.
-/
def decode? : List Char → Option (List Char)
  | [] => some []
  | '\\' :: 'u' :: a :: b :: c :: d :: rest =>
      let unit := hexUnit a b c d
      if 0xD800 ≤ unit ∧ unit < 0xDC00 then
        match rest with
        | '\\' :: 'u' :: e :: f :: g :: h :: rest =>
            let low := hexUnit e f g h
            if 0xDC00 ≤ low ∧ low < 0xE000 then
              (decode? rest).map (Char.ofNat (surrogatePair unit low) :: ·)
            else none
        | _ => none
      else if 0xDC00 ≤ unit ∧ unit < 0xE000 then none
      else (decode? rest).map (Char.ofNat unit :: ·)
  | '\\' :: c :: rest => do
      let character ← escaped? c
      (decode? rest).map (character :: ·)
  | c :: rest => (decode? rest).map (c :: ·)

/-- The text of a string value. -/
def text? : Json → Option String
  | string spelling => (decode? spelling).map String.ofList
  | _ => none

/-- The natural number of a number value that is spelled with digits alone. -/
def natural? : Json → Option (List Char)
  | number spelling => if spelling.all Char.isDigit then some spelling else none
  | _ => none

end Json
end ExactFormula
