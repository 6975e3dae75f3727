/-!
# Tokens of JSON

A text is cut into punctuation, words, numbers and strings.  Numbers and
strings are checked for their form here and keep their spelling: a string keeps
its escapes, whose meaning is asked for only where the string is used.
-/

namespace ExactFormula
namespace Json

/-- A token. -/
inductive Token
  /-- The bracket that opens an array. -/
  | openArray
  /-- The bracket that closes an array. -/
  | closeArray
  /-- The brace that opens an object. -/
  | openObject
  /-- The brace that closes an object. -/
  | closeObject
  /-- The sign between items or members. -/
  | comma
  /-- The sign between a key and its value. -/
  | colon
  /-- The word `null`. -/
  | null
  /-- The word `true` or `false`. -/
  | boolean (value : Bool)
  /-- A number, as it is spelled. -/
  | number (spelling : List Char)
  /-- A string, as it is spelled between its quotes. -/
  | string (spelling : List Char)
  deriving DecidableEq, Repr

/-- The characters that separate tokens. -/
def isSpace (c : Char) : Bool :=
  c = ' ' || c = '\n' || c = '\t' || c = '\r'

/-- The value of a hexadecimal digit. -/
def hexDigit? (c : Char) : Option Nat :=
  if c.isDigit then some (c.toNat - '0'.toNat)
  else if 'a' ≤ c && c ≤ 'f' then some (c.toNat - 'a'.toNat + 10)
  else if 'A' ≤ c && c ≤ 'F' then some (c.toNat - 'A'.toNat + 10)
  else none

/-- The character that a one-letter escape stands for. -/
def escaped? : Char → Option Char
  | '"' => some '"'
  | '\\' => some '\\'
  | '/' => some '/'
  | 'b' => some '\x08'
  | 'f' => some '\x0c'
  | 'n' => some '\n'
  | 'r' => some '\r'
  | 't' => some '\t'
  | _ => none

/-! ## Strings -/

/--
The spelling of a string up to its closing quote, and the text after it.
Control characters must be escaped, and an escape must have its form.
-/
def scanString? : List Char → Option (List Char × List Char)
  | [] => none
  | '"' :: rest => some ([], rest)
  | '\\' :: 'u' :: a :: b :: c :: d :: rest =>
      if [a, b, c, d].all fun digit => (hexDigit? digit).isSome then
        (scanString? rest).map fun scanned =>
          ('\\' :: 'u' :: a :: b :: c :: d :: scanned.1, scanned.2)
      else none
  | '\\' :: c :: rest =>
      if (escaped? c).isSome then
        (scanString? rest).map fun scanned => ('\\' :: c :: scanned.1, scanned.2)
      else none
  | c :: rest =>
      if c = '\\' ∨ c.toNat < 0x20 then none
      else (scanString? rest).map fun scanned => (c :: scanned.1, scanned.2)

/-- What follows a string is shorter than what the string began in. -/
theorem length_of_scanString?
    {text spelling rest : List Char}
    (scanned : scanString? text = some (spelling, rest)) :
    rest.length < text.length := by
  fun_induction scanString? text generalizing spelling with
  | case1 => simp at scanned
  | case2 tail =>
      simp only [Option.some.injEq, Prod.mk.injEq] at scanned
      simp [← scanned.2]
  | case3 a b c d tail isHex inductionHypothesis =>
      simp only [Option.map_eq_some_iff, Prod.mk.injEq] at scanned
      obtain ⟨⟨first, last⟩, found, _, rfl⟩ := scanned
      have shorter : last.length < tail.length := inductionHypothesis found
      simp only [List.length_cons]
      omega
  | case4 => simp at scanned
  | case5 c tail _ isEscape inductionHypothesis =>
      simp only [Option.map_eq_some_iff, Prod.mk.injEq] at scanned
      obtain ⟨⟨first, last⟩, found, _, rfl⟩ := scanned
      have shorter : last.length < tail.length := inductionHypothesis found
      simp only [List.length_cons]
      omega
  | case6 => simp at scanned
  | case7 => simp at scanned
  | case8 c tail _ _ _ _ inductionHypothesis =>
      simp only [Option.map_eq_some_iff, Prod.mk.injEq] at scanned
      obtain ⟨⟨first, last⟩, found, _, rfl⟩ := scanned
      have shorter : last.length < tail.length := inductionHypothesis found
      simp only [List.length_cons]
      omega

/-! ## Numbers -/

/-- A character that can occur in a number. -/
def isNumberChar (c : Char) : Bool :=
  c.isDigit || c = '-' || c = '+' || c = '.' || c = 'e' || c = 'E'

/-- Skip one digit or more. -/
def skipDigits? (text : List Char) : Option (List Char) :=
  if text.takeWhile Char.isDigit = [] then none else some (text.dropWhile Char.isDigit)

/-- Skip digits that begin with a zero only when the zero is alone. -/
def skipInteger? : List Char → Option (List Char)
  | '0' :: rest => if rest.takeWhile Char.isDigit = [] then some rest else none
  | text => skipDigits? text

/-- Skip a fraction if there is one. -/
def skipFraction? : List Char → Option (List Char)
  | '.' :: rest => skipDigits? rest
  | text => some text

/-- Skip a sign if there is one. -/
def skipSign : List Char → List Char
  | '+' :: rest => rest
  | '-' :: rest => rest
  | text => text

/-- Skip an exponent if there is one. -/
def skipExponent? : List Char → Option (List Char)
  | 'e' :: rest => skipDigits? (skipSign rest)
  | 'E' :: rest => skipDigits? (skipSign rest)
  | text => some text

/-- Whether a text is a number: a minus at will, an integer, a fraction, an exponent. -/
def isNumber (text : List Char) : Bool :=
  let unsigned :=
    match text with
    | '-' :: rest => rest
    | text => text
  ((skipInteger? unsigned).bind skipFraction?).bind skipExponent? = some []

/-! ## All tokens -/

/-- The token that a single character makes. -/
def punctuation? : Char → Option Token
  | '[' => some .openArray
  | ']' => some .closeArray
  | '\x7b' => some .openObject
  | '\x7d' => some .closeObject
  | ',' => some .comma
  | ':' => some .colon
  | _ => none

/-- The token of a word. -/
def word? (word : List Char) : Option Token :=
  match String.ofList word with
  | "null" => some .null
  | "true" => some (.boolean true)
  | "false" => some (.boolean false)
  | _ => none

theorem length_dropWhile_le
    (test : Char → Bool)
    (text : List Char) :
    (text.dropWhile test).length ≤ text.length :=
  (List.dropWhile_suffix test).length_le

/-- The tokens of a text, if it consists of tokens and spaces. -/
def tokens? : List Char → Option (List Token)
  | [] => some []
  | c :: rest =>
      if isSpace c then tokens? rest
      else if c = '"' then
        match _scanned : scanString? rest with
        | some (spelling, after) => (tokens? after).map (.string spelling :: ·)
        | none => none
      else if isNumberChar c then
        if isNumber (c :: rest.takeWhile isNumberChar) then
          (tokens? (rest.dropWhile isNumberChar)).map
            (.number (c :: rest.takeWhile isNumberChar) :: ·)
        else none
      else
        match punctuation? c with
        | some token => (tokens? rest).map (token :: ·)
        | none =>
            match word? (c :: rest.takeWhile Char.isAlpha) with
            | some token => (tokens? (rest.dropWhile Char.isAlpha)).map (token :: ·)
            | none => none
termination_by text => text.length
decreasing_by
  all_goals simp only [List.length_cons]
  · omega
  · have := length_of_scanString? _scanned
    omega
  · have := length_dropWhile_le isNumberChar rest
    omega
  · omega
  · have := length_dropWhile_le Char.isAlpha rest
    omega

end Json
end ExactFormula
