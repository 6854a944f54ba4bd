import Mathlib.Data.List.Basic

/-!
# Bytes as characters

String constants as bytes, and the character classes that the parsers of the
shell and of the database test.
-/

namespace Bytes

/-- The bytes of a string constant. -/
def text (s : String) : List UInt8 := s.toList.map fun c => UInt8.ofNat c.toNat

/-- `isspace` in the C locale. -/
def isspace (chr : UInt8) : Bool := chr == 32 || (9 ≤ chr && chr ≤ 13)

/-- `isdigit`. -/
def isdigit (chr : UInt8) : Bool := 48 ≤ chr && chr ≤ 57

/-- A single or a double quotation mark. -/
def isQuote (chr : UInt8) : Bool := chr == 39 || chr == 34

end Bytes
