import Ladybug.Lib.LittleEndian
import Mathlib.Data.List.ModifyLast

/-!
# The memory of the undo buffer

The records of an undo buffer lie one behind the other in memory buffers, each behind a header with
its type and its size. A record that does not fit into the last memory buffer starts a new one.
-/

namespace Ladybug

open LittleEndian

/-- An `UndoRecordType` and the bytes of the record. -/
structure UndoEntry where
  recordType : ℕ
  record : List UInt8
  deriving DecidableEq

/-- The `UndoRecordHeader`, in which padding follows the type, and the record. -/
def UndoEntry.bytes (e : UndoEntry) : List UInt8 :=
  encode 4 e.recordType ++ encode 4 e.record.length ++ e.record

/-- `UndoMemoryBuffer`, with the bytes before `currentPosition`. -/
structure UndoMemoryBuffer where
  data : List UInt8
  capacity : ℕ

namespace UndoMemoryBuffer

def canFit (b : UndoMemoryBuffer) (size : ℕ) : Bool := b.data.length + size ≤ b.capacity

/-- The loop that doubles the capacity of a new buffer. -/
def growCapacity (size : ℕ) : ℕ → ℕ → ℕ
  | 0, capacity => capacity
  | fuel + 1, capacity =>
    if size > capacity then growCapacity size fuel (capacity * 2) else capacity

/-- `createUndoRecord`, and the write of the record. `moveCurrentPosition` asserts that the record
fits, which `undoBuffer_iterate` shows. -/
def createUndoRecord (memoryBuffers : List UndoMemoryBuffer) (e : UndoEntry) :
    List UndoMemoryBuffer :=
  let size := e.bytes.length
  (if memoryBuffers.getLast?.any (canFit · size) then memoryBuffers
    else memoryBuffers ++ [⟨[], growCapacity size size 4096⟩]).modifyLast
      fun b => { b with data := b.data ++ e.bytes }

/-- The entries from `current` on. -/
def entries : ℕ → List UInt8 → List UndoEntry
  | 0, _ => []
  | fuel + 1, current =>
    if current.isEmpty then []
    else
      let recordSize := decode ((current.drop 4).take 4)
      let record := current.drop 8
      ⟨decode (current.take 4), record.take recordSize⟩ :: entries fuel (record.drop recordSize)

/-- `iterate`: the calls of its callback. -/
def iterate (memoryBuffers : List UndoMemoryBuffer) : List UndoEntry :=
  memoryBuffers.flatMap fun b => entries b.data.length b.data

def reverseIterate (memoryBuffers : List UndoMemoryBuffer) : List UndoEntry :=
  memoryBuffers.reverse.flatMap fun b => (entries b.data.length b.data).reverse

end UndoMemoryBuffer

end Ladybug
