/-!
# Multiplicity of a factor

How often a factor divides a positive number, found by trying its powers
`p ^ (2 ^ level)` from the highest level down, each at most once.
-/

namespace ExactFormula

/-- A number taken apart as `base ^ count * rest`. -/
structure Multiplicity where
  /-- How often the base was taken out. -/
  count : Nat
  /-- What is left of the number. -/
  rest : Nat
  deriving DecidableEq, Repr

namespace Multiplicity

/-- Take out a base at most `2 ^ (level + 1) - 1` times. -/
def upTo
    (base : Nat) :
    Nat → Nat → Multiplicity
  | 0, n =>
      if n % base = 0 then ⟨1, n / base⟩ else ⟨0, n⟩
  | level + 1, n =>
      let power := Nat.pow base (Nat.pow 2 (level + 1))
      if n % power = 0 then
        let inner := upTo base level (n / power)
        ⟨inner.count + Nat.pow 2 (level + 1), inner.rest⟩
      else upTo base level n

/--
Take a base out of a number as often as it divides it.  A positive number `n`
has no factor of two or more as often as `2 ^ (Nat.log2 (Nat.log2 n + 1) + 1)`
times.
-/
def of
    (base n : Nat) :
    Multiplicity :=
  upTo base (Nat.log2 (Nat.log2 n + 1)) n

end Multiplicity
end ExactFormula
