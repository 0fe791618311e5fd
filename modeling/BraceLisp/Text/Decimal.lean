/-!
Decimal numerals of the signed 64-bit integers.
-/

namespace BraceLisp.Text

/-- The value of a digit that follows digits of the value `before`. -/
def digitValue (before : Nat) (c : Char) : Nat := 10 * before + (c.toNat - '0'.toNat)

/-- The value of a run of digits. -/
def digitsValue (cs : List Char) : Nat := cs.foldl digitValue 0

/-- The natural number that a text denotes: one digit or more and nothing else. -/
def natural? (cs : List Char) : Option Nat :=
  if !cs.isEmpty && cs.all Char.isDigit then some (digitsValue cs) else none

/-- The 64-bit integer with a given value. -/
def int64? (i : Int) : Option Int64 :=
  if -0x8000000000000000 ≤ i ∧ i < 0x8000000000000000 then some (Int64.ofInt i) else none

/-- The 64-bit integer that a text denotes: a sign or none, then one digit or more. -/
def readInt64? : List Char → Option Int64
  | '-' :: cs => (natural? cs).bind fun n => int64? (-n)
  | '+' :: cs => (natural? cs).bind fun n => int64? n
  | cs => (natural? cs).bind fun n => int64? n

def digitChar (n : Nat) : Char := Char.ofNat ('0'.toNat + n)

/-- The digits of a natural number, without leading zeros. -/
def digits (n : Nat) : List Char :=
  if n < 10 then [digitChar n] else digits (n / 10) ++ [digitChar (n % 10)]

/-- The numeral of an integer, with a sign if it is negative. -/
def decimal (i : Int) : List Char :=
  if i < 0 then '-' :: digits i.natAbs else digits i.natAbs

end BraceLisp.Text
