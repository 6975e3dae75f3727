/-!
# Failures of exact arithmetic

The causes for which a number cannot be read or computed, with their wording
and the code under which a host reports them.
-/

namespace ExactFormula

/-- Why a value lies outside the domain of an operation. -/
inductive DomainCause
  /-- A negative base was raised to a power that is not an integer. -/
  | fractionalPowerOfNegative
  /-- A binary value was not a number. -/
  | notANumber
  /-- A binary value was infinite. -/
  | infinite (negative : Bool)
  deriving DecidableEq, Repr

/-- The wording of a domain cause. -/
def DomainCause.message : DomainCause → String
  | .fractionalPowerOfNegative => "fractional power of negative number"
  | .notANumber => "NaN is not a finite number"
  | .infinite false => "inf is not a finite number"
  | .infinite true => "-inf is not a finite number"

/-- Why a number could not be read or computed. -/
inductive Failure
  /-- The text is not a number; it is kept without the blanks around it. -/
  | malformed (text : String)
  /-- A divisor was zero, or zero was raised to a negative power. -/
  | divisionByZero
  /-- An operand lies outside the domain of the operation. -/
  | outsideDomain (cause : DomainCause)
  /-- An integer power is too large to be computed. -/
  | overflow
  deriving DecidableEq, Repr

namespace Failure

/-- The wording of a failure. -/
def message : Failure → String
  | malformed text => "Invalid number format: " ++ text
  | divisionByZero => "Division by zero"
  | outsideDomain cause => "Domain error: " ++ cause.message
  | overflow => "Overflow: result too large"

/-- The code under which a host reports a failure. -/
def code : Failure → String
  | malformed _ => "PARSE_ERROR"
  | divisionByZero => "DIV_ZERO"
  | outsideDomain _ => "DOMAIN_ERROR"
  | overflow => "OVERFLOW"

end Failure
end ExactFormula
