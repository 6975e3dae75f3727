/-!
# Decimal digits of natural numbers

A number is written by halving: the digits of `n` are those of
`n / 10 ^ (2 ^ level)` followed by the last `2 ^ level` digits of `n`, so that
a long number costs a few long divisions and not one for each digit.
-/

namespace ExactFormula
namespace Digits

/-- The last `2 ^ level` decimal digits of a number, zeros on the left included. -/
def block : Nat → Nat → List Char
  | 0, n => [Nat.digitChar (n % 10)]
  | level + 1, n =>
      let unit := Nat.pow 10 (Nat.pow 2 level)
      block level (n / unit) ++ block level (n % unit)

/-- The digits of a number below `10 ^ (2 ^ level)`, with no zero in front. -/
def below : Nat → Nat → List Char
  | 0, n => [Nat.digitChar (n % 10)]
  | level + 1, n =>
      let unit := Nat.pow 10 (Nat.pow 2 level)
      if n < unit then below level n else below level (n / unit) ++ block level (n % unit)

/-- A level that is high enough for the number: `n < 10 ^ (2 ^ level n)`. -/
def level (n : Nat) : Nat :=
  Nat.log2 (Nat.log2 n + 1) + 1

/-- The decimal digits of a number; zero has the one digit `0`. -/
def ofNat (n : Nat) : List Char :=
  below (level n) n

/-- A number as a text of decimal digits. -/
def text (n : Nat) : String :=
  String.ofList (ofNat n)

/-- The number that a list of digits writes; an empty list writes zero. -/
def toNat (digits : List Char) : Nat :=
  digits.foldl (fun value digit => 10 * value + (digit.toNat - '0'.toNat)) 0

/-- The number of decimal digits of a number; zero has one. -/
def count (n : Nat) : Nat :=
  (ofNat n).length

/-- The digits filled up with zeros on the left to the given width. -/
def padded
    (width : Nat)
    (digits : List Char) :
    List Char :=
  List.replicate (width - digits.length) '0' ++ digits

/-- The digits from the first to the last that is not a zero. -/
def significant (digits : List Char) : List Char :=
  ((digits.dropWhile (· = '0')).reverse.dropWhile (· = '0')).reverse

end Digits
end ExactFormula
