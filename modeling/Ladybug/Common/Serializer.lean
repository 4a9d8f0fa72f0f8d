import Ladybug.Lib.LittleEndian

/-!
# Serializing and deserializing

`Serializer` writes values as the bytes that they have in memory, vectors behind their length. A
function that serializes is modelled by its calls of `write`, a function that deserializes by a
`ReadProgram`: the calls of `read` that it makes, each of which may depend on the bytes read before.

The debugging information that some builds write between the values is left out: it is compiled
away unless `LBUG_DESER_DEBUG` is defined, and then it is written and read alike.
-/

namespace Ladybug

open LittleEndian (decode decode_encode_of_lt encode length_encode)

/-! ### Reading -/

/-- The calls of `read` that a function makes, with the destination of each. -/
inductive ReadProgram (α : Type) where
  | done (a : α)
  | throw (message : String)
  | read (data : List UInt8) (next : List UInt8 → ReadProgram α)

namespace ReadProgram

variable {α β : Type}

def map (f : α → β) : ReadProgram α → ReadProgram β
  | done a => done (f a)
  | throw message => throw message
  | read data next => read data fun bytes => (next bytes).map f

/-- One function after the other. -/
def bind (p : ReadProgram α) (f : α → ReadProgram β) : ReadProgram β :=
  match p with
  | done a => f a
  | throw message => throw message
  | read data next => read data fun bytes => (next bytes).bind f

instance : Monad ReadProgram where
  pure := done
  bind := bind

/-- The result on a sequence of bytes, and the bytes that are left. -/
def feed : ReadProgram α → List UInt8 → Option (α × List UInt8)
  | done a, bytes => some (a, bytes)
  | throw _, _ => none
  | read data next, bytes =>
    if data.length ≤ bytes.length then
      (next (bytes.take data.length)).feed (bytes.drop data.length)
    else none

/-- The sizes of the reads on a sequence of bytes. -/
def readSizes : ReadProgram α → List UInt8 → List ℕ
  | done _, _ => []
  | throw _, _ => []
  | read data next, bytes =>
    data.length :: (next (bytes.take data.length)).readSizes (bytes.drop data.length)

end ReadProgram

/-! ### Values -/

/-- A type whose values are written as the bytes that they have in memory. -/
class Trivial (α : Type) where
  /-- `sizeof` -/
  size : ℕ
  toBytes : α → List UInt8
  /-- the value that some bytes are; an enumeration has none for some of them -/
  ofBytes : List UInt8 → Option α
  length_toBytes : ∀ a, (toBytes a).length = size
  ofBytes_toBytes : ∀ a, ofBytes (toBytes a) = some a

instance : Trivial UInt32 where
  size := 4
  toBytes n := encode 4 n.toNat
  ofBytes bytes := some (UInt32.ofNat (decode bytes))
  length_toBytes _ := length_encode _ _
  ofBytes_toBytes n := by
    rw [decode_encode_of_lt (by simpa using n.toNat_lt), UInt32.ofNat_toNat]

instance : Trivial UInt64 where
  size := 8
  toBytes n := encode 8 n.toNat
  ofBytes bytes := some (UInt64.ofNat (decode bytes))
  length_toBytes _ := length_encode _ _
  ofBytes_toBytes n := by
    rw [decode_encode_of_lt (by simpa using n.toNat_lt), UInt64.ofNat_toNat]

/-! ### The serializer -/

def serializeValue {α : Type} [Trivial α] (value : α) : List (List UInt8) := [Trivial.toBytes value]

/-! ### The deserializer -/

section Deserializer

variable {α : Type}

def deserializeValue (α : Type) [Trivial α] : ReadProgram α :=
  .read (List.replicate (Trivial.size α) 0) fun bytes =>
    match Trivial.ofBytes bytes with
    | some value => .done value
    | none => .throw "KU_UNREACHABLE"

/-- The loop that reads the elements of a vector. -/
def deserializeElements (deserialize : ReadProgram α) : ℕ → ReadProgram (List α)
  | 0 => pure []
  | n + 1 => do
    let value ← deserialize
    let values ← deserializeElements deserialize n
    return value :: values

end Deserializer

end Ladybug
