import Eliminant.Coefficient.Basic

/-!
# Numerals: coefficients as text

* `Coefficient.text` writes a coefficient as `n` or `n/d`: lowest terms, the sign in front.
* `Coefficient.ofNumeral` reads an integer of any length. One sign may stand before the first
  digit, blanks may stand anywhere, and an underscore may stand anywhere after the first digit.
-/

namespace Eliminant

/-- Why a text is no integer. -/
inductive NumeralError where
  | badDigit
  | noDigits
  deriving DecidableEq, Repr

/-- The wording of a numeral error for the text that was read. -/
def NumeralError.message (numeral : String) : NumeralError → String
  | badDigit => "Could not parse number " ++ numeral ++ ": invalid digit found in string"
  | noDigits => "Could not parse number " ++ numeral ++ ": string has no digits"

namespace Coefficient

/-! ## 1. Writing -/

/-- A fraction as text; the denominator `1` is not written. -/
def fractionText (num den : Int) : String :=
  if den = 1 then toString num else toString num ++ "/" ++ toString den

/-- A coefficient as text. -/
def text : Coefficient → String
  | small num den .. => fractionText num den
  | large r _ => fractionText r.num r.den

/-! ## 2. Reading -/

/-- The blanks that a numeral may contain. -/
def isNumeralBlank (c : Char) : Bool :=
  c == ' ' || ('\t' ≤ c && c ≤ '\r')

/-- What has been read of a numeral: its sign, if one was given, and the value of its digits, if
    there was any. -/
structure NumeralState where
  negative? : Option Bool
  value? : Option Nat
  deriving DecidableEq, Repr

/-- One more character of a numeral. -/
def NumeralState.step (s : NumeralState) (c : Char) : Except NumeralError NumeralState :=
  if c.isDigit then
    .ok { s with value? := some (s.value?.getD 0 * 10 + (c.toNat - '0'.toNat)) }
  else if isNumeralBlank c then .ok s
  else if c == '_' && s.value?.isSome then .ok s
  else if (c == '-' || c == '+') && s.negative?.isNone && s.value?.isNone then
    .ok { s with negative? := some (c == '-') }
  else .error .badDigit

/-- The integer that a numeral writes. -/
def integerOfNumeral (s : String) : Except NumeralError Int := do
  let read ← s.toList.foldlM NumeralState.step ⟨none, none⟩
  match read.value? with
  | none => .error .noDigits
  | some n => return if read.negative? = some true then -(n : Int) else n

/-- The coefficient that a numeral writes. -/
def ofNumeral (s : String) : Except NumeralError Coefficient :=
  return ofInt (← integerOfNumeral s)

end Coefficient

end Eliminant
