import NodeLogs.Text.Basic

/-! Decimal numerals in ASCII digits, and the numbers that fit a 64-bit word. -/

namespace NodeLogs

/-- Numbers from here on, 2⁶⁴ and more, do not fit a word. -/
def wordLimit : Nat := 18446744073709551616

/-- The decimal numeral of a number, without leading zeros. -/
def decimal (n : Nat) : Text :=
  Nat.toDigits 10 n

def isAsciiDigit (c : Char) : Bool :=
  '0' ≤ c && c ≤ '9'

def digitValue (c : Char) : Nat :=
  c.toNat - '0'.toNat

/-- The number that a row of digits denotes, on top of what was read before. -/
def digitsValue (digits : Text) : Nat :=
  digits.foldl (fun n c => 10 * n + digitValue c) 0

/-- Reads a whole text as a word: ASCII digits only, at least one, leading zeros allowed. -/
def readWord? (cs : Text) : Option Nat :=
  if cs.isEmpty || !cs.all isAsciiDigit then none
  else
    let n := digitsValue cs
    if n < wordLimit then some n else none

end NodeLogs
