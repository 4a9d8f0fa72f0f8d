import Mathlib.Data.Nat.Log
import Ladybug.Common.BufferedFile
import Ladybug.Common.Checksum

/-!
# Checksummed entries of the write-ahead log

`ChecksumWriter` collects what is written between `onObjectBegin` and `onObjectEnd` in an entry
buffer and then writes the entry and its checksum. `ChecksumReader` collects what it reads in the
same way and compares. Both replace the entry buffer when an entry outgrows it.

The contents of newly allocated memory are the parameter `mem`: byte `i` of the buffer that is
allocated after `n` others is `mem n i`.
-/

namespace Ladybug

/-- `std::bit_ceil`. -/
def bitCeil (n : ℕ) : ℕ := 2 ^ Nat.clog 2 n

/-- The contents of newly allocated memory. -/
abbrev Memory := ℕ → ℕ → UInt8

structure EntryBuffer where
  data : List UInt8
  /-- the number of buffers allocated so far -/
  numAllocated : ℕ

namespace EntryBuffer

/-- `MemoryManager::allocateBuffer(false, size)`. -/
def allocateBuffer (mem : Memory) (numAllocated size : ℕ) : EntryBuffer :=
  ⟨(List.range size).map (mem numAllocated), numAllocated + 1⟩

def resizeBufferIfNeeded (mem : Memory) (entryBuffer : EntryBuffer) (requestedSize : ℕ) :
    EntryBuffer :=
  if requestedSize > entryBuffer.data.length then
    allocateBuffer mem entryBuffer.numAllocated (bitCeil requestedSize)
  else entryBuffer

/-- What `write` and `read` do to the entry buffer. -/
def append (mem : Memory) (entryBuffer : EntryBuffer) (currentEntrySize : ℕ) (data : List UInt8) :
    EntryBuffer :=
  let entryBuffer := entryBuffer.resizeBufferIfNeeded mem (currentEntrySize + data.length)
  { entryBuffer with data := memcpy entryBuffer.data currentEntrySize data }

end EntryBuffer

/-- `ChecksumWriter`; `output` is what it has written to its `outputSerializer`. -/
structure ChecksumWriter where
  output : List UInt8
  currentEntrySize : Option ℕ
  entryBuffer : EntryBuffer

namespace ChecksumWriter

def init (mem : Memory) (pageSize : ℕ) : ChecksumWriter where
  output := []
  currentEntrySize := none
  entryBuffer := .allocateBuffer mem 0 pageSize

def write (mem : Memory) (w : ChecksumWriter) (data : List UInt8) : ChecksumWriter :=
  match w.currentEntrySize with
  | some size =>
    { w with
      entryBuffer := w.entryBuffer.append mem size data
      currentEntrySize := some (size + data.length) }
  | none => { w with output := w.output ++ data }

def onObjectBegin (w : ChecksumWriter) : ChecksumWriter := { w with currentEntrySize := some 0 }

/-- `onObjectEnd`; `none` when its assertion fails. -/
def onObjectEnd (w : ChecksumWriter) : Option ChecksumWriter :=
  w.currentEntrySize.map fun size =>
    let entry := w.entryBuffer.data.take size
    { w with output := w.output ++ entry ++ leBytes (checksum entry), currentEntrySize := none }

/-- One object, written by a sequence of calls of `write`. -/
def writeObject (mem : Memory) (w : ChecksumWriter) (writes : List (List UInt8)) :
    Option ChecksumWriter :=
  (writes.foldl (write mem) w.onObjectBegin).onObjectEnd

end ChecksumWriter

/-- The message of a checksum that does not match. -/
def checksumMismatchMessage : String := "Checksum verification failed, the WAL file is corrupted."

structure ChecksumReader where
  deserializer : BufferedFileReader
  currentEntrySize : Option ℕ
  entryBuffer : EntryBuffer

namespace ChecksumReader

variable (mem : Memory) (pageSize : ℕ)

def init (file : List UInt8) : Except Fault ChecksumReader := do
  let deserializer ← BufferedFileReader.init pageSize file
  return { deserializer := deserializer
           currentEntrySize := none
           entryBuffer := .allocateBuffer mem 0 pageSize }

/-- `read`; `data` is what the destination holds before. -/
def read (r : ChecksumReader) (data : List UInt8) : Except Fault (List UInt8 × ChecksumReader) := do
  let (data, deserializer) ← r.deserializer.read pageSize data
  match r.currentEntrySize with
  | some size =>
    return (data, { deserializer := deserializer
                    entryBuffer := r.entryBuffer.append mem size data
                    currentEntrySize := some (size + data.length) })
  | none => return (data, { r with deserializer := deserializer })

def finished (r : ChecksumReader) : Bool := r.deserializer.finished

def onObjectBegin (r : ChecksumReader) : ChecksumReader := { r with currentEntrySize := some 0 }

/-- `onObjectEnd`; outside an object (its assertion fails there) it does nothing. -/
def onObjectEnd (r : ChecksumReader) : Except Fault ChecksumReader :=
  match r.currentEntrySize with
  | none => .ok r
  | some size => do
    let computedChecksum := checksum (r.entryBuffer.data.take size)
    let (bytes, deserializer) ← r.deserializer.read pageSize (leBytes 0)
    if ofLeBytes bytes ≠ computedChecksum then
      throw (.exception checksumMismatchMessage)
    return { r with deserializer := deserializer, currentEntrySize := none }

def getReadOffset (r : ChecksumReader) : ℕ := r.deserializer.getReadOffset

/-- The calls of `read` for one object, one for each destination. -/
def readAll : ChecksumReader → List (List UInt8) → Except Fault (List UInt8 × ChecksumReader)
  | r, [] => .ok ([], r)
  | r, data :: reads => do
    let (bytes, r) ← r.read mem pageSize data
    let (rest, r) ← readAll r reads
    return (bytes ++ rest, r)

/-- One object: the bytes of all its reads, in order. -/
def readObject (r : ChecksumReader) (reads : List (List UInt8)) :
    Except Fault (List UInt8 × ChecksumReader) := do
  let (bytes, r) ← readAll mem pageSize r.onObjectBegin reads
  let r ← r.onObjectEnd pageSize
  return (bytes, r)

/-- A sequence of objects: the bytes of each. -/
def readObjects : ChecksumReader → List (List (List UInt8)) →
    Except Fault (List (List UInt8) × ChecksumReader)
  | r, [] => .ok ([], r)
  | r, reads :: objects => do
    let (bytes, r) ← r.readObject mem pageSize reads
    let (rest, r) ← readObjects r objects
    return (bytes :: rest, r)

end ChecksumReader

/-! ### Growth of the entry buffer

Both classes allocate a new buffer when an entry outgrows the old one and do not copy what the entry
holds so far. -/

/-- The size of the buffer after `n` more bytes of an entry that has `currentEntrySize`. -/
def grownSize (bufferSize currentEntrySize n : ℕ) : ℕ :=
  if currentEntrySize + n > bufferSize then bitCeil (currentEntrySize + n) else bufferSize

/-- The size of the buffer after calls with the given sizes. -/
def sizeAfter (bufferSize currentEntrySize : ℕ) : List ℕ → ℕ
  | [] => bufferSize
  | n :: sizes =>
    sizeAfter (grownSize bufferSize currentEntrySize n) (currentEntrySize + n) sizes

/-- The buffer grows only at the first call of the entry that passes any bytes. -/
def growsOnlyEmpty (bufferSize currentEntrySize : ℕ) : List ℕ → Bool
  | [] => true
  | n :: sizes =>
    (currentEntrySize + n ≤ bufferSize || currentEntrySize == 0) &&
      growsOnlyEmpty (grownSize bufferSize currentEntrySize n) (currentEntrySize + n) sizes

/-- The same for each entry of a sequence, with the buffer of the entry before. -/
def entriesFit (bufferSize : ℕ) : List (List ℕ) → Bool
  | [] => true
  | sizes :: entries =>
    growsOnlyEmpty bufferSize 0 sizes && entriesFit (sizeAfter bufferSize 0 sizes) entries

end Ladybug
