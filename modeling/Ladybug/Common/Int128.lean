import Mathlib.Algebra.Group.Int.Defs

/-!
# The 128-bit integers

`int128_t` has no hardware type behind it: it is a pair of 64-bit words, `low` and `high`, and its
operations are written on the words. A value is the number of 128 bits that the two words make
together here, in two's complement.

The in-place operations answer `false` when the result does not fit, and the operators then throw an
`OverflowException`.
-/

namespace Ladybug

/-- `std::bit_width`: how many bits a number takes. -/
def bitWidth (x : ℕ) : ℕ :=
  if x = 0 then 0 else x.log2 + 1

namespace Int128

/-- The lower word, a `uint64_t`. -/
def low (x : BitVec 128) : BitVec 64 :=
  x.extractLsb' 0 64

/-- The upper word, an `int64_t`. -/
def high (x : BitVec 128) : BitVec 64 :=
  x.extractLsb' 64 64

/-- `int128_t(low, high)`. -/
def ofWords (low high : BitVec 64) : BitVec 128 :=
  high ++ low

def lessThan (lhs rhs : BitVec 128) : Bool :=
  (high lhs).slt (high rhs) || (high lhs == high rhs && (low lhs).ult (low rhs))

def negate (input : BitVec 128) : Except String (BitVec 128) :=
  if high input = BitVec.intMin 64 ∧ low input = 0 then
    throw "INT128 is out of range: cannot negate INT128_MIN"
  else
    let newLow := 0 - low input
    let newHigh := -(high input) - 1 + (if newLow = 0 then 1 else 0)
    return ofWords newLow newHigh

/-- `addInPlace`; `none` is the answer `false`. -/
def addInPlace (lhs rhs : BitVec 128) : Option (BitVec 128) :=
  let lhsPositive := 0 ≤ (high lhs).toInt
  let rhsPositive := 0 ≤ (high rhs).toInt
  let overflow := if (low lhs + low rhs).toNat < (low lhs).toNat then 1 else 0
  if 0 ≤ (high rhs).toInt ∧ (high lhs).toInt > 2 ^ 63 - 1 - (high rhs).toInt - overflow then
    none
  else if (high rhs).toInt < 0 ∧ (high lhs).toInt < -2 ^ 63 - (high rhs).toInt - overflow then
    none
  else
    let newHigh := high lhs + high rhs + BitVec.ofInt 64 overflow
    let newLow := low lhs + low rhs
    if lhsPositive ∧ rhsPositive ∧ newHigh = BitVec.intMin 64 ∧ newLow = 0 then none
    else some (ofWords newLow newHigh)

/-- `subInPlace`; `none` is the answer `false`. -/
def subInPlace (lhs rhs : BitVec 128) : Option (BitVec 128) :=
  let underflow := if (low lhs).toNat < (low lhs - low rhs).toNat then 1 else 0
  if 0 ≤ (high rhs).toInt ∧ (high lhs).toInt < -2 ^ 63 + (high rhs).toInt + underflow then
    none
  else if (high rhs).toInt < 0 ∧ (high lhs).toInt > -2 ^ 63 ∧
      (high lhs).toInt - 1 ≥ 2 ^ 63 - 1 + (high rhs).toInt + underflow then
    none
  else
    let newHigh := high lhs - high rhs - BitVec.ofInt 64 underflow
    let newLow := low lhs - low rhs
    if newHigh = BitVec.intMin 64 ∧ newLow = 0 then none
    else some (ofWords newLow newHigh)

/-- `operator+=`. -/
def addAssign (lhs rhs : BitVec 128) : Except String (BitVec 128) :=
  match addInPlace lhs rhs with
  | some result => return result
  | none => throw "INT128 is out of range: cannot add in place."

/-- `Sub`, the operator `-` of two operands. -/
def sub (lhs rhs : BitVec 128) : Except String (BitVec 128) :=
  match subInPlace lhs rhs with
  | some result => return result
  | none => throw "INT128 is out of range: cannot subtract."

def leftShift (lhs : BitVec 128) (amount : ℕ) : BitVec 128 :=
  if 64 ≤ amount then ofWords 0 (low lhs <<< (amount - 64))
  else if amount = 0 then lhs
  else ofWords (low lhs <<< amount) ((high lhs <<< amount) ||| (low lhs >>> (64 - amount)))

/-- `RightShift`, which fills with the sign. -/
def rightShift (lhs : BitVec 128) (amount : ℕ) : BitVec 128 :=
  if 64 ≤ amount then ofWords ((high lhs).sshiftRight (amount - 64)) ((high lhs).sshiftRight 63)
  else if amount = 0 then lhs
  else ofWords ((low lhs >>> amount) ||| (high lhs <<< (64 - amount)))
    ((high lhs).sshiftRight amount)

/-- `numeric_utils::bitWidth` of an `int128_t`. -/
def bitWidth (x : BitVec 128) : ℕ :=
  if high x ≠ 0 then 64 + Ladybug.bitWidth (high x).toNat else Ladybug.bitWidth (low x).toNat

end Int128

end Ladybug
