import CoroDB.Storage.Value
import Mathlib.Data.Nat.Digits.Lemmas

/-!
# Bytes of a statement and the texts of integers
-/

namespace CoroDB

namespace Ascii

abbrev quote : UInt8 := 39
abbrev minus : UInt8 := 45
abbrev placeholder : UInt8 := 63

def isSpace (c : UInt8) : Bool := c == 32 || (9 ≤ c && c ≤ 13)

def toUpper (c : UInt8) : UInt8 := if 97 ≤ c && c ≤ 122 then c - 32 else c

end Ascii

open Ascii

/-- The digits of `std::to_string`. -/
def decimal (n : Nat) : Bytes :=
  if n = 0 then [48] else (Nat.digits 10 n).reverse.map fun d => UInt8.ofNat (48 + d)

/-- `std::to_string` of an `int64_t`. -/
def intText (i : Int64) : Bytes :=
  if i.toInt < 0 then minus :: decimal i.toInt.natAbs else decimal i.toInt.natAbs

end CoroDB
