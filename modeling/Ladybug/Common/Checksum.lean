import Mathlib.Algebra.Group.Nat.Defs

/-!
# The checksum of a byte buffer

`checksum` folds the 64-bit words of a buffer, in the byte order of the machine (little endian), and
hashes the last bytes that do not fill a word with `checksumRemainder`.
-/

namespace Ladybug

/-- The bytes of a `uint64_t` in memory. -/
def leBytes (x : UInt64) : List UInt8 :=
  (List.range 8).map fun i => UInt8.ofNat (x.toNat / 256 ^ i)

/-- The `uint64_t` that bytes in memory stand for. -/
def ofLeBytes (bytes : List UInt8) : UInt64 :=
  UInt64.ofNat (bytes.foldr (fun b acc => b.toNat + 256 * acc) 0)

/-- `checksum` of one word. -/
def checksumWord (x : UInt64) : UInt64 := x * 0xbf58476d1ce4e5b9

namespace ChecksumRemainder

def M : UInt64 := 0xc6a4a7935bd1e995

def SEED : UInt64 := 0xe17a1465

def R : UInt64 := 47

/-- The loop over the blocks of eight bytes; it returns the bytes that are left. -/
def blocks (h : UInt64) : List UInt8 → UInt64 × List UInt8
  | b₀ :: b₁ :: b₂ :: b₃ :: b₄ :: b₅ :: b₆ :: b₇ :: rest =>
    let k := ofLeBytes [b₀, b₁, b₂, b₃, b₄, b₅, b₆, b₇] * M
    let k := (k ^^^ (k >>> R)) * M
    blocks ((h ^^^ k) * M) rest
  | rest => (h, rest)

/-- The `switch` over the bytes that are left. -/
def tail (h : UInt64) (data8 : List UInt8) : UInt64 :=
  if data8 = [] then h
  else data8.zipIdx.foldr (fun b h => h ^^^ (b.1.toUInt64 <<< (8 * UInt64.ofNat b.2))) h * M

end ChecksumRemainder

open ChecksumRemainder in
def checksumRemainder (data : List UInt8) : UInt64 :=
  let h := SEED ^^^ (UInt64.ofNat data.length * M)
  let (h, data8) := blocks h data
  let h := tail h data8
  let h := (h ^^^ (h >>> R)) * M
  h ^^^ (h >>> R)

/-- The loop of `checksum`. -/
def checksumFrom (result : UInt64) : List UInt8 → UInt64
  | b₀ :: b₁ :: b₂ :: b₃ :: b₄ :: b₅ :: b₆ :: b₇ :: rest =>
    checksumFrom (result ^^^ checksumWord (ofLeBytes [b₀, b₁, b₂, b₃, b₄, b₅, b₆, b₇])) rest
  | [] => result
  | rest => result ^^^ checksumRemainder rest

/-- `checksum` of a buffer. -/
def checksum (buffer : List UInt8) : UInt64 := checksumFrom 5381 buffer

end Ladybug
