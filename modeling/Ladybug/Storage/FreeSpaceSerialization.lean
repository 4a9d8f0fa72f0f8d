import Ladybug.Common.Serializer
import Ladybug.Storage.PageManager
import Mathlib.Data.List.ModifyLast

/-!
# The free page ranges in a checkpoint

At the end of the storage metadata a checkpoint writes the free page ranges: those that can be
handed out, and those that wait for the checkpoint to be finalized. The pages of the metadata
itself are allocated before that, from an estimate of their number. When the database is opened,
the ranges are read back, and the number of pages is that of the file.

The storage metadata in front of them is given by its size.
-/

namespace Ladybug

/-- `LBUG_PAGE_SIZE`. -/
def lbugPageSize : ℕ := 4096

/-- What `serializeInternal` hands to its `ValueProcessor`. -/
inductive ProcessedValue where
  | debuggingInfo (value : String)
  | rowIdx (value : UInt64)
  | pageIdx (value : UInt32)
  deriving Repr, DecidableEq

structure SerializePagesUsedTracker where
  numPagesUsed : ℕ := 0
  numBytesUsedInPage : ℕ := 0
  deriving Repr, DecidableEq

namespace SerializePagesUsedTracker

def updatePagesUsed (t : SerializePagesUsedTracker) (numBytesToAdd : ℕ) :
    SerializePagesUsedTracker :=
  if t.numBytesUsedInPage + numBytesToAdd > lbugPageSize then
    { numPagesUsed := t.numPagesUsed + 1, numBytesUsedInPage := numBytesToAdd }
  else { t with numBytesUsedInPage := t.numBytesUsedInPage + numBytesToAdd }

/-- The number of bytes that the tracker counts for a value. -/
def sizeOf : ProcessedValue → ℕ
  | .debuggingInfo value => 8 + value.length
  | .rowIdx _ => 8
  | .pageIdx _ => 4

/-- `processValue` and `processDebuggingInfo`. -/
def process (t : SerializePagesUsedTracker) (value : ProcessedValue) :
    SerializePagesUsedTracker :=
  t.updatePagesUsed (sizeOf value)

end SerializePagesUsedTracker

/-- `ValueSerializer`: `processValue`, and `processDebuggingInfo`, which writes nothing. -/
def serializeProcessed : ProcessedValue → List (List UInt8)
  | .debuggingInfo _ => []
  | .rowIdx value => serializeValue value
  | .pageIdx value => serializeValue value

namespace FreeSpaceManager

def processEntry (entry : PageRange) : List ProcessedValue :=
  [.pageIdx (UInt32.ofNat entry.startPageIdx), .pageIdx (UInt32.ofNat entry.numPages)]

def serializeInternal (fsm : FreeSpaceManager) : List ProcessedValue :=
  [.debuggingInfo "page_manager", .debuggingInfo "numEntries",
    .rowIdx (UInt64.ofNat (fsm.numEntries + fsm.uncheckpointedFreePageRanges.length)),
    .debuggingInfo "entries"] ++
    -- `serializeCheckpointedEntries`
    fsm.freeLists.flatten.flatMap processEntry ++
    -- `serializeUncheckpointedEntries`
    fsm.uncheckpointedFreePageRanges.flatMap processEntry

def getMaxNumPagesForSerialization (fsm : FreeSpaceManager) : ℕ :=
  let ser := fsm.serializeInternal.foldl SerializePagesUsedTracker.process {}
  ser.numPagesUsed + if ser.numBytesUsedInPage > 0 then 1 else 0

def serialize (fsm : FreeSpaceManager) : List (List UInt8) :=
  fsm.serializeInternal.flatMap serializeProcessed

/-- One entry of `deserialize`. -/
def deserializeEntry : ReadProgram PageRange := do
  let startPageIdx ← deserializeValue UInt32
  let numPages ← deserializeValue UInt32
  return { startPageIdx := startPageIdx.toNat, numPages := numPages.toNat }

/-- The reads of `deserialize`: the entries that it adds. -/
def deserialize : ReadProgram (List PageRange) := do
  let numEntries ← deserializeValue UInt64
  deserializeElements deserializeEntry numEntries.toNat

end FreeSpaceManager

/-- `InMemFileWriter`, with the bytes that were written to each of its pages. -/
structure InMemFileWriter where
  pages : List (List UInt8) := []
  pageOffset : ℕ := 0
  deriving Repr, DecidableEq

namespace InMemFileWriter

def needNewBuffer (w : InMemFileWriter) (size : ℕ) : Bool :=
  w.pages.isEmpty || w.pageOffset + size > lbugPageSize

/-- The new page of `write`, if it needs one, behind the bytes that still fit on the last page: what
remains to be written, and the writer. -/
def newBuffer (w : InMemFileWriter) (size : ℕ) (remaining : List UInt8) :
    List UInt8 × InMemFileWriter :=
  if w.needNewBuffer size then
    let toCopy := if w.pages.isEmpty then 0 else min size (lbugPageSize - w.pageOffset)
    (remaining.drop toCopy,
      { pages := w.pages.modifyLast (· ++ remaining.take toCopy) ++ [[]], pageOffset := 0 })
  else (remaining, w)

/-- The loop of `write`; `size` is the size of all its data. -/
def writeLoop (size : ℕ) : ℕ → List UInt8 → InMemFileWriter → InMemFileWriter
  | 0, _, w => w
  | fuel + 1, remaining, w =>
    if remaining.isEmpty then w
    else
      let (remaining, w) := w.newBuffer size remaining
      let toCopy := min remaining.length (lbugPageSize - w.pageOffset)
      writeLoop size fuel (remaining.drop toCopy)
        { pages := w.pages.modifyLast (· ++ remaining.take toCopy)
          pageOffset := w.pageOffset + toCopy }

/-- `write`.  Every turn of the loop writes a byte. -/
def write (w : InMemFileWriter) (data : List UInt8) : InMemFileWriter :=
  writeLoop data.length data.length data w

def getNumPagesToFlush (w : InMemFileWriter) : ℕ := w.pages.length

def getSize (w : InMemFileWriter) : ℕ :=
  (if w.pages.length > 1 then lbugPageSize * (w.pages.length - 1) else 0) + w.pageOffset

/-- `flush` to a writer: the calls of `write`.  `behind` is what the memory of the last page holds
behind the bytes that were written. -/
def flushTo (w : InMemFileWriter) (behind : List UInt8) : List (List UInt8) :=
  (w.pages.dropLast.map fun page => (page ++ behind).take lbugPageSize) ++
    w.pages.getLast?.toList.map fun page => (page ++ behind).take w.pageOffset

/-- `flush` to a range: what is written to each of its pages. -/
def flush (w : InMemFileWriter) (behind : List UInt8) (range : PageRange) :
    List (List UInt8 × ℕ) :=
  ((w.pages.map fun page => (page ++ behind).take lbugPageSize) ++
    List.replicate (range.numPages - w.getNumPagesToFlush)
      (List.replicate lbugPageSize 0)).zipIdx range.startPageIdx

end InMemFileWriter

/-- The number of pages of some bytes: `InMemFileWriter` fills a page before it begins the next. -/
def getNumPagesToFlush (numBytes : ℕ) : ℕ := (numBytes + lbugPageSize - 1) / lbugPageSize

/-- `Checkpointer::serializeMetadata`, with the writes of the storage metadata: the pages that it
allocates, the writer that is then flushed to them, and the owners afterwards. -/
def Checkpointer.serializeMetadata (s : PageSystem) (metadata : List (List UInt8)) :
    Option (PageRange × InMemFileWriter × PageSystem) := do
  let metadataWriter := metadata.foldl InMemFileWriter.write {}
  let pagesForPageManager := s.pageManager.freeSpaceManager.getMaxNumPagesForSerialization
  let (allocatedPages, pageManager) ← s.pageManager.allocatePageRange
    (metadataWriter.getNumPagesToFlush + pagesForPageManager)
  return (allocatedPages, pageManager.freeSpaceManager.serialize.foldl InMemFileWriter.write
    metadataWriter, { s with pageManager := pageManager, owned := allocatedPages :: s.owned })

namespace PageSystem

/-- `serializeMetadata`, behind `numMetadataBytes` bytes of storage metadata: the pages that it
allocates, the bytes that the free space manager writes, and the owners afterwards. -/
def serializeMetadata (s : PageSystem) (numMetadataBytes : ℕ) :
    Option (PageRange × List UInt8 × PageSystem) := do
  let pagesForPageManager := s.pageManager.freeSpaceManager.getMaxNumPagesForSerialization
  let (allocatedPages, pageManager) ← s.pageManager.allocatePageRange
    (getNumPagesToFlush numMetadataBytes + pagesForPageManager)
  return (allocatedPages, pageManager.freeSpaceManager.serialize.flatten,
    { s with pageManager := pageManager, owned := allocatedPages :: s.owned })

/-- The part of `serializeCatalogAndMetadata` for the metadata: the range of the last checkpoint, if
there is one, is freed first. -/
def checkpointMetadata (s : PageSystem) (metadataPageRange : Option PageRange)
    (numMetadataBytes : ℕ) : Option (PageRange × List UInt8 × PageSystem) := do
  let s ← match metadataPageRange with
    | some range => s.step (.freePageRange range range)
    | none => some s
  s.serializeMetadata numMetadataBytes

end PageSystem

/-- Opening a file of `numFilePages` pages: `constructPersistentFileHandle` counts its pages, and
`PageManager::deserialize` reads the free ranges. -/
def PageManager.readCheckpoint (numFilePages : ℕ) (bytes : List UInt8) : Option PageManager := do
  let (entries, _) ← FreeSpaceManager.deserialize.feed bytes
  PageManager.deserialize numFilePages entries

/-- The data file: its pages as the page manager sees them, the metadata of the last checkpoint, and
how many pages there are on disk. -/
structure DataFile where
  system : PageSystem
  metadataPageRange : Option PageRange := none
  numFilePages : ℕ
  deriving Repr, DecidableEq

namespace DataFile

/-- A new file has one page, for the database header. -/
def new : DataFile :=
  { system := { pageManager := { numPages := 1 }, owned := [⟨0, 1⟩] }, numFilePages := 1 }

/-- An action on the pages; nothing is written. -/
def step (d : DataFile) (a : PageAction) : Option DataFile :=
  (d.system.step a).map fun system => { d with system }

/-- `writeCheckpoint`, as far as the pages are concerned: what the free space manager writes, and
the file afterwards.  Every page that the page manager counts is written before the header, so the
file has at least as many pages; `finalizeCheckpoint` does not make it shorter. -/
def writeCheckpoint (d : DataFile) (numMetadataBytes : ℕ) : Option (List UInt8 × DataFile) := do
  let (metadataPageRange, bytes, system) ←
    d.system.checkpointMetadata d.metadataPageRange numMetadataBytes
  let numFilePages := max d.numFilePages system.pageManager.numPages
  let system ← system.step .finalizeCheckpoint
  return (bytes, { system, metadataPageRange := some metadataPageRange, numFilePages })

inductive Action where
  | page (a : PageAction)
  | writeCheckpoint (numMetadataBytes : ℕ)
  deriving Repr, DecidableEq

def act (d : DataFile) : Action → Option DataFile
  | .page a => d.step a
  | .writeCheckpoint numMetadataBytes => (d.writeCheckpoint numMetadataBytes).map (·.2)

end DataFile

end Ladybug
