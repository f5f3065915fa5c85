import CoroDB.Framework.Word

/-!
# Values and their order

The variant `NullValue | int64_t | double | std::string`, with the comparators that order the storage
keys.
-/

namespace CoroDB

open Framework

abbrev Bytes := List UInt8

def Ascii.ascii (text : String) : Bytes := text.toList.map fun c => UInt8.ofNat c.toNat

structure Double where
  bits : UInt64
  deriving DecidableEq, Repr

namespace Double

def negative (d : Double) : Bool := decide (2 ^ 63 ≤ d.bits.toNat)

def magnitude (d : Double) : Nat := d.bits.toNat % 2 ^ 63

def isNaN (d : Double) : Bool := decide (0x7FF0000000000000 < d.magnitude)

/-- Sign and magnitude as one integer, whose order is the numeric order of the finite and infinite
doubles. -/
def ordinal (d : Double) : Int := if d.negative then -d.magnitude else d.magnitude

def less (a b : Double) : Bool := !a.isNaN && !b.isNaN && decide (a.ordinal < b.ordinal)

def equal (a b : Double) : Bool := !a.isNaN && !b.isNaN && decide (a.ordinal = b.ordinal)

end Double

inductive Value where
  | null
  | int (i : Int64)
  | double (d : Double)
  | text (s : Bytes)
  deriving DecidableEq, Repr

namespace Value

def index : Value → Nat
  | null => 0
  | int _ => 1
  | double _ => 2
  | text _ => 3

def isNaN : Value → Bool
  | double d => d.isNaN
  | _ => false

end Value

def valueEq (a b : Value) : Bool :=
  match a, b with
  | .null, .null => true
  | .int x, .int y => x == y
  | .double x, .double y => x.equal y
  | .text x, .text y => x == y
  | _, _ => false

def valueLess (a b : Value) : Bool :=
  if a.index ≠ b.index then decide (a.index < b.index)
  else match a, b with
    | .int x, .int y => decide (x < y)
    | .double x, .double y => x.less y
    | .text x, .text y => decide (x < y)
    | _, _ => false

/-- The linear order behind `valueLess` on values that are not a `NaN`. -/
abbrev ValueKey := ℕ ×ₗ ℤ ×ₗ List UInt8

def valueKey : Value → ValueKey
  | .null => toLex (0, toLex (0, []))
  | .int i => toLex (1, toLex (i.toInt, []))
  | .double d => toLex (2, toLex (d.ordinal, []))
  | .text s => toLex (3, toLex (0, s))

theorem valueEq_iff {a b : Value} (ha : a.isNaN = false) (hb : b.isNaN = false) :
    valueEq a b = true ↔ valueKey a = valueKey b := by
  cases a <;> cases b <;>
    simp_all [valueEq, valueKey, Value.isNaN, Double.equal, Int64.toInt_inj]

theorem valueLess_iff {a b : Value} (ha : a.isNaN = false) (hb : b.isNaN = false) :
    valueLess a b = true ↔ valueKey a < valueKey b := by
  cases a <;> cases b <;>
    simp_all [valueLess, valueKey, Value.index, Value.isNaN, Double.less, Prod.Lex.toLex_lt_toLex,
      Int64.lt_iff_toInt_lt]

theorem valueEq_of_isNaN {a : Value} (ha : a.isNaN = true) (b : Value) :
    valueEq a b = false ∧ valueEq b a = false := by
  cases a <;> cases b <;> simp_all [valueEq, Value.isNaN, Double.equal]

end CoroDB
