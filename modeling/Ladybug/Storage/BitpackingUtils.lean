import Ladybug.Common.Int128
import Ladybug.Lib.BitField

/-!
# Packing single values into bits

`BitpackingUtils<U>` writes and reads a value of `bitWidth` bits at any bit position of a buffer,
one field of the buffer after the other. A field is a byte for the types of at most 16 bits and a
word of 32 bits for the others; a value can lie in up to five fields.

`Int128Packer` packs blocks of 32 values of 128 bits; the blocks of the other types are packed by
FastPFor, which puts the lower bits of the values next to each other.

A buffer is the number that its bytes spell in little-endian order, and a pointer into it the
position of a bit.
-/

namespace Ladybug

open Int128 (leftShift rightShift low high ofWords)

/-- The types that `IntegerBitpacking` is made for. -/
inductive IntType where
  | int8 | int16 | int32 | int64 | int128 | uint8 | uint16 | uint32 | uint64
  deriving Repr, DecidableEq

namespace IntType

/-- The number of bits of a value, for the type and for its unsigned counterpart. -/
def width : IntType → ℕ
  | .int8 | .uint8 => 8
  | .int16 | .uint16 => 16
  | .int32 | .uint32 => 32
  | .int64 | .uint64 => 64
  | .int128 => 128

/-- `sizeof(T)`. -/
def numBytes (t : IntType) : ℕ :=
  t.width / 8

def isSigned : IntType → Bool
  | .int8 | .int16 | .int32 | .int64 | .int128 => true
  | .uint8 | .uint16 | .uint32 | .uint64 => false

/-- `sizeof(CompressedType)` in bits: `uint32_t` from four bytes on, and `uint8_t` below. -/
def fieldBits (t : IntType) : ℕ :=
  if 4 ≤ t.numBytes then 32 else 8

/-- The number that a value stands for. -/
def toInt (t : IntType) (x : BitVec t.width) : ℤ :=
  if t.isSigned then x.toInt else x.toNat

/-! ### The operations of a type

The types of the hardware wrap around; `int128_t` has operations of its own. -/

/-- `operator<`. -/
def lessThan : (t : IntType) → BitVec t.width → BitVec t.width → Bool
  | .int128, x, y => Int128.lessThan x y
  | t, x, y => if t.isSigned then x.slt y else x.ult y

/-- `operator-`. -/
def sub : (t : IntType) → BitVec t.width → BitVec t.width → Except String (BitVec t.width)
  | .int128, x, y => Int128.sub x y
  | _, x, y => return x - y

/-- `operator+=`. -/
def addAssign : (t : IntType) → BitVec t.width → BitVec t.width → Except String (BitVec t.width)
  | .int128, x, y => Int128.addAssign x y
  | _, x, y => return x + y

/-- `abs`; the least value of a signed type of the hardware is its own absolute value. -/
def abs : (t : IntType) → BitVec t.width → Except String (BitVec t.width)
  | .int128, x => if Int128.lessThan x 0 then Int128.negate x else return x
  | t, x => return if t.isSigned && x.slt 0 then -x else x

/-- `operator<<`. -/
def shiftLeft : (t : IntType) → BitVec t.width → ℕ → BitVec t.width
  | .int128, x, n => leftShift x n
  | _, x, n => x <<< n

/-- `operator>>` of the unsigned counterpart; `int128_t` is its own. -/
def shiftRight : (t : IntType) → BitVec t.width → ℕ → BitVec t.width
  | .int128, x, n => rightShift x n
  | _, x, n => x >>> n

def bitWidth : (t : IntType) → BitVec t.width → ℕ
  | .int128, x => Int128.bitWidth x
  | _, x => Ladybug.bitWidth x.toNat

/-- `BitmaskUtils::all1sMaskForLeastSignificantBits`.  For 128 bits `RightShift` gets the amount -1,
which C++ leaves undefined; the shifts of the hardware take the lowest six bits of it. -/
def all1sMaskForLeastSignificantBits : (t : IntType) → ℕ → BitVec t.width
  | .int128, numBits =>
    let fullMask := ~~~(leftShift 1 127)
    if numBits < 128 then rightShift fullMask (127 - numBits)
    else ofWords (low fullMask >>> 63 ||| high fullMask <<< 1) ((high fullMask).sshiftRight 63)
  | t, numBits =>
    if numBits = t.width then BitVec.allOnes t.width else (1#t.width <<< numBits) - 1#t.width

end IntType

/-! ### Single values -/

namespace BitpackingUtils

variable (t : IntType)

/-- Field `i` of the buffer from `pos` on. -/
def loadField (buffer pos i : ℕ) : BitVec t.fieldBits :=
  BitVec.ofNat t.fieldBits (BitField.get buffer (pos + t.fieldBits * i) t.fieldBits)

/-- Writes field `i` of the buffer from `pos` on. -/
def storeField (buffer pos i : ℕ) (field : BitVec t.fieldBits) : ℕ :=
  BitField.set buffer (pos + t.fieldBits * i) t.fieldBits field.toNat

def unpackSingleField (buffer pos shiftRight : ℕ) : ℕ → BitVec t.width
  | 0 => t.shiftRight ((loadField t buffer pos 0).setWidth t.width) shiftRight
  | i + 1 =>
    unpackSingleField buffer pos shiftRight i |||
      t.shiftLeft ((loadField t buffer pos (i + 1)).setWidth t.width)
        ((i + 1) * t.fieldBits - shiftRight)

/-- The last of the fields that hold `delta` bits from bit `shift` of the first one on. -/
def lastField (delta shift : ℕ) : ℕ :=
  if delta + shift ≤ t.fieldBits then 0
  else if delta + shift ≤ 2 * t.fieldBits then 1
  else if delta + shift ≤ 3 * t.fieldBits then 2
  else if delta + shift ≤ 4 * t.fieldBits then 3
  else 4

/-- `unpackSingleValueInPlace`: the fields, without the bits behind the value. -/
def unpackSingleValueInPlace (buffer pos delta shiftRight : ℕ) : BitVec t.width :=
  unpackSingleField t buffer pos shiftRight (lastField t delta shiftRight) &&&
    t.all1sMaskForLeastSignificantBits delta

/-- `unpackSingle`: value `srcOffset` of a row of values of `bitWidth` bits. -/
def unpackSingle (buffer pos bitWidth srcOffset : ℕ) : BitVec t.width :=
  let srcBufferOffset := srcOffset * bitWidth / t.fieldBits
  let shiftRight := srcOffset * bitWidth % t.fieldBits
  unpackSingleValueInPlace t buffer (pos + t.fieldBits * srcBufferOffset) bitWidth shiftRight

def setValueForBitsMatchingMask (shiftRight : Bool) (out : BitVec t.fieldBits)
    (unshiftedValue unshiftedMask : BitVec t.width) (shift : ℕ) : BitVec t.fieldBits :=
  let shifted (x : BitVec t.width) : BitVec t.fieldBits :=
    (if shiftRight then t.shiftRight x shift else t.shiftLeft x shift).setWidth t.fieldBits
  let valueToSet := shifted (unshiftedValue &&& unshiftedMask)
  let mask := shifted unshiftedMask
  let bitsToSet := valueToSet &&& mask
  let bitsToClear := ~~~mask ||| valueToSet
  (out ||| bitsToSet) &&& bitsToClear

def packSingleField (value mask : BitVec t.width) (pos shiftLeft buffer : ℕ) : ℕ → ℕ
  | 0 =>
    storeField t buffer pos 0
      (setValueForBitsMatchingMask t false (loadField t buffer pos 0) value mask shiftLeft)
  | i + 1 =>
    let buffer := packSingleField value mask pos shiftLeft buffer i
    storeField t buffer pos (i + 1)
      (setValueForBitsMatchingMask t true (loadField t buffer pos (i + 1)) value mask
        ((i + 1) * t.fieldBits - shiftLeft))

/-- `packSingle`: writes value `dstOffset` of a row of values of `bitWidth` bits. -/
def packSingle (value : BitVec t.width) (buffer pos bitWidth dstOffset : ℕ) : ℕ :=
  let dstBufferOffset := dstOffset * bitWidth / t.fieldBits
  let shiftLeft := dstOffset * bitWidth % t.fieldBits
  packSingleField t value (t.all1sMaskForLeastSignificantBits bitWidth)
    (pos + t.fieldBits * dstBufferOffset) shiftLeft buffer (lastField t bitWidth shiftLeft)

end BitpackingUtils

/-! ### Blocks of 32 values -/

namespace FastPFor

/-- `fastpack`: the lower `bitWidth` bits of the values, one after the other. -/
def fastpack {w : ℕ} (values : List (BitVec w)) (buffer pos bitWidth : ℕ) : ℕ :=
  values.zipIdx.foldl
    (fun buffer v => BitField.set buffer (pos + v.2 * bitWidth) bitWidth v.1.toNat) buffer

def fastunpack (w buffer pos bitWidth : ℕ) : List (BitVec w) :=
  (List.range 32).map fun i => BitVec.ofNat w (BitField.get buffer (pos + i * bitWidth) bitWidth)

end FastPFor

namespace Int128Packer

/-- The loop of `packDelta32`, …, `packDelta128`: each value takes `numWords` words. -/
def packDelta (numWords : ℕ) (values : List (BitVec 128)) (buffer pos : ℕ) : ℕ :=
  values.zipIdx.foldl (fun buffer v =>
    (List.range numWords).foldl (fun buffer j =>
      BitpackingUtils.storeField .int128 buffer pos (numWords * v.2 + j)
        ((rightShift v.1 (32 * j)).setWidth 32)) buffer) buffer

def packDelta32 := packDelta 1
def packDelta64 := packDelta 2
def packDelta96 := packDelta 3
def packDelta128 := packDelta 4

/-- The loop of `unpackDelta32`, …, `unpackDelta128`. -/
def unpackDelta (numWords buffer pos : ℕ) : List (BitVec 128) :=
  (List.range 32).map fun i =>
    (List.range numWords).foldl (fun out j =>
      out ||| leftShift
        ((BitpackingUtils.loadField .int128 buffer pos (numWords * i + j)).setWidth 128) (32 * j)) 0

def unpackDelta32 := unpackDelta 1
def unpackDelta64 := unpackDelta 2
def unpackDelta96 := unpackDelta 3
def unpackDelta128 := unpackDelta 4

/-- `unpackLast`: the last value ends with its last word, so nothing has to be cut off. -/
def unpackLast (buffer pos delta : ℕ) : BitVec 128 :=
  let shift := delta * 31 % 32
  let word (j : ℕ) : BitVec 128 := (BitpackingUtils.loadField .int128 buffer pos j).setWidth 128
  let out := word 0 >>> shift
  let out := if delta > 32 then out ||| leftShift (word 1) (32 - shift) else out
  let out := if delta > 64 then out ||| leftShift (word 2) (64 - shift) else out
  if delta > 96 then out ||| leftShift (word 3) (96 - shift) else out

def pack (values : List (BitVec 128)) (buffer pos width : ℕ) : ℕ :=
  if width = 0 then buffer
  else if width = 32 then packDelta32 values buffer pos
  else if width = 64 then packDelta64 values buffer pos
  else if width = 96 then packDelta96 values buffer pos
  else if width = 128 then packDelta128 values buffer pos
  else values.zipIdx.foldl
    (fun buffer v => BitpackingUtils.packSingle .int128 v.1 buffer pos width v.2) buffer

def unpack (buffer pos width : ℕ) : List (BitVec 128) :=
  if width = 0 then List.replicate 32 0
  else if width = 32 then unpackDelta32 buffer pos
  else if width = 64 then unpackDelta64 buffer pos
  else if width = 96 then unpackDelta96 buffer pos
  else if width = 128 then unpackDelta128 buffer pos
  else
    let single (i : ℕ) : BitVec 128 := BitpackingUtils.unpackSingle .int128 buffer pos width i
    (List.range 31).map single ++ [unpackLast buffer (pos + 32 * (31 * width / 32)) width]

end Int128Packer

end Ladybug
