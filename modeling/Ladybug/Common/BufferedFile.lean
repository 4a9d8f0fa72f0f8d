import Mathlib.Algebra.GroupWithZero.Nat

/-!
# Buffered reading and writing of a file

`BufferedFileWriter` collects what is written in a buffer of one page. `BufferedFileReader` reads a
file page by page into a buffer. A read either succeeds, throws, or
runs `memcpy` with a length that has wrapped around below zero (`Fault.undefinedBehavior`): the
source subtracts unsigned integers there without a check.

`pageSize` is `LBUG_PAGE_SIZE`. After a large read that has thrown, `fileOffset` may be less than
`bufferSize`. The difference of the two then wraps around in the source and is 0 here, so such a
reader is modelled only up to its next read.
-/

namespace Ladybug

/-- How a function of the source can end without returning. -/
inductive Fault where
  | exception (message : String)
  | undefinedBehavior
  deriving Repr, DecidableEq

/-- `memcpy` of `src` into `dst`, from `offset` on. -/
def memcpy (dst : List UInt8) (offset : ℕ) (src : List UInt8) : List UInt8 :=
  dst.take offset ++ src ++ dst.drop (offset + src.length)

/-- `FileInfo::readFromFile` of a local file: a read that meets the end of the file is accepted, and
leaves the rest of the destination as it was. -/
def readFromFile (file : List UInt8) (buffer : List UInt8) (numBytes position : ℕ) :
    Except Fault (List UInt8) :=
  let bytes := (file.drop position).take numBytes
  if bytes.length ≠ numBytes ∧ file.length ≠ position + bytes.length then
    .error (.exception "Cannot read from file")
  else .ok (memcpy buffer 0 bytes)

/-- `FileInfo::writeFile` of a local file, of at least one byte: a gap before `offset` is zero. -/
def writeFile (file data : List UInt8) (offset : ℕ) : List UInt8 :=
  memcpy (file ++ List.replicate (offset - file.length) 0) offset data

structure BufferedFileWriter where
  /-- the contents of the file; `getFileSize` is its length -/
  file : List UInt8
  buffer : List UInt8
  fileOffset : ℕ
  bufferOffset : ℕ
  deriving DecidableEq

namespace BufferedFileWriter

variable (pageSize : ℕ)

/-- The constructor, for a file that was just created. -/
def init : BufferedFileWriter :=
  { file := [], buffer := List.replicate pageSize 0, fileOffset := 0, bufferOffset := 0 }

/-- `flush`, which the destructor also runs. -/
def flush (w : BufferedFileWriter) : BufferedFileWriter :=
  if w.bufferOffset = 0 then w
  else
    { file := writeFile w.file (w.buffer.take w.bufferOffset) w.fileOffset
      buffer := List.replicate pageSize 0
      fileOffset := w.fileOffset + w.bufferOffset
      bufferOffset := 0 }

def write (w : BufferedFileWriter) (data : List UInt8) : BufferedFileWriter :=
  let size := data.length
  if size > pageSize then
    let w := w.flush pageSize
    { w with file := writeFile w.file data w.fileOffset, fileOffset := w.fileOffset + size }
  else if w.bufferOffset + size ≤ pageSize then
    { w with
      buffer := memcpy w.buffer w.bufferOffset data
      bufferOffset := w.bufferOffset + size }
  else
    let toCopy := pageSize - w.bufferOffset
    let w := flush pageSize { w with
      buffer := memcpy w.buffer w.bufferOffset (data.take toCopy)
      bufferOffset := w.bufferOffset + toCopy }
    { w with
      buffer := memcpy w.buffer 0 (data.drop toCopy)
      bufferOffset := w.bufferOffset + (size - toCopy) }

def getSize (w : BufferedFileWriter) : ℕ := w.file.length + w.bufferOffset

end BufferedFileWriter

structure BufferedFileReader where
  /-- the contents of the file; `fileSize` is its length -/
  file : List UInt8
  buffer : List UInt8
  fileOffset : ℕ
  bufferOffset : ℕ
  bufferSize : ℕ
  deriving DecidableEq

namespace BufferedFileReader

variable (pageSize : ℕ)

def readNextPage (r : BufferedFileReader) : Except Fault BufferedFileReader :=
  if r.file.length ≤ r.fileOffset then
    .error (.exception "Reading past the end of the file")
  else do
    let bufferSize := min (r.file.length - r.fileOffset) pageSize
    let buffer ← readFromFile r.file r.buffer bufferSize r.fileOffset
    return { r with
      buffer := buffer
      bufferSize := bufferSize
      fileOffset := r.fileOffset + bufferSize
      bufferOffset := 0 }

/-- The constructor: the buffer is zero before the first page is read. -/
def init (file : List UInt8) : Except Fault BufferedFileReader :=
  readNextPage pageSize
    { file := file
      buffer := List.replicate pageSize 0
      fileOffset := 0
      bufferOffset := 0
      bufferSize := 0 }

/-- `read`; `data` is what the destination holds before. -/
def read (r : BufferedFileReader) (data : List UInt8) :
    Except Fault (List UInt8 × BufferedFileReader) :=
  let size := data.length
  if size > pageSize then do
    let fileOffset := r.fileOffset - r.bufferSize + r.bufferOffset
    let data ← readFromFile r.file data size fileOffset
    return (data, { r with fileOffset := fileOffset + size, bufferOffset := r.bufferSize })
  else if r.bufferOffset + size ≤ r.bufferSize then
    .ok ((r.buffer.drop r.bufferOffset).take size, { r with bufferOffset := r.bufferOffset + size })
  else if r.bufferSize < r.bufferOffset then .error .undefinedBehavior
  else do
    let toCopy := r.bufferSize - r.bufferOffset
    let copied := (r.buffer.drop r.bufferOffset).take toCopy
    let r ← readNextPage pageSize r
    let remaining := size - toCopy
    return (copied ++ r.buffer.take remaining, { r with bufferOffset := remaining })

/-- The reader after a `read` that throws: what was assigned before the throw stays. -/
def afterThrow (r : BufferedFileReader) (size : ℕ) : BufferedFileReader :=
  if size > pageSize then { r with fileOffset := r.fileOffset - r.bufferSize + r.bufferOffset }
  else { r with bufferOffset := r.bufferSize }

/-- The reader after a `read`, whether that returns or throws. -/
def next (r : BufferedFileReader) (data : List UInt8) : BufferedFileReader :=
  match r.read pageSize data with
  | .ok (_, r) => r
  | .error _ => r.afterThrow pageSize data.length

def finished (r : BufferedFileReader) : Bool :=
  r.bufferOffset ≥ r.bufferSize && r.file.length ≤ r.fileOffset

def getReadOffset (r : BufferedFileReader) : ℕ := r.fileOffset - r.bufferSize + r.bufferOffset

end BufferedFileReader

end Ladybug
