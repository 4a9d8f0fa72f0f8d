import Ladybug.Storage.Compression

/-!
# Checkpoints of integer segments in place

`Column::checkpointSegment` writes updated rows into the pages of a segment when the packing of the
segment need not change: `canCheckpointInPlace` asks every range of updated rows for itself whether
the packing of the old minimum and maximum together with those of the range is the old one. The
ranges are then written with the old metadata, and `updateStatistics` moves the minimum or the
maximum.

The null column is a column of its own, and its checkpoint is left out, as are the page ranges in
the data file.
-/

namespace Ladybug

variable {t : IntType}

/-! ### Checks -/

namespace IntegerBitpacking

/-- `std::min` and `std::max` of a type. -/
def stdMin (t : IntType) (a b : BitVec t.width) : BitVec t.width :=
  if t.lessThan b a then b else a

@[inherit_doc stdMin]
def stdMax (t : IntType) (a b : BitVec t.width) : BitVec t.width :=
  if t.lessThan a b then b else a

def canUpdateInPlace (values : List (BitVec t.width)) (metadata : CompressionMetadata)
    (nullMask : Option NullMask) (nullMaskOffset : ℕ) : Except String Bool := do
  let info ← getPackingInfo t metadata
  match getTypedMinMax t values nullMask nullMaskOffset with
  | (some min, some max) =>
    let newInfo ← getPackingInfo t
      ⟨.ofValue t (stdMin t (metadata.min.get t) (min.get t)),
        .ofValue t (stdMax t (metadata.max.get t) (max.get t)), metadata.compression⟩
    return decide (info = newInfo)
  | _ => return true

/-! ### Writing -/

def setPartialChunkInPlace (values : List (BitVec t.width)) (dstBuffer posInDst : ℕ)
    (info : BitpackInfo t) : Except String ℕ := do
  let tmp ← copyValuesToTempChunkWithOffset values info
  return packPartialChunk tmp dstBuffer 0 posInDst info

/-- The loop of `setValuesFromUncompressed` over the full chunks, which start at the value
`posInDst` of the page. -/
def setFullChunks (values : List (BitVec t.width)) (dstBuffer posInDst : ℕ) (info : BitpackInfo t) :
    Except String ℕ :=
  (List.range (values.length / CHUNK_SIZE)).foldlM (fun buffer c => do
    let tmp ← copyValuesToTempChunkWithOffset
      ((values.drop (c * CHUNK_SIZE)).take CHUNK_SIZE) info
    return fastpack tmp buffer (8 * ((posInDst + c * CHUNK_SIZE) * info.bitWidth / 8))
      info.bitWidth) dstBuffer

/-- `setValuesFromUncompressed`: the end of the first chunk, the full chunks, and the start of the
last one. -/
def setValuesFromUncompressed (values : List (BitVec t.width)) (dstBuffer posInDst : ℕ)
    (metadata : CompressionMetadata) : Except String ℕ := do
  let header ← getPackingInfo t metadata
  let valuesInFirstChunk := min (CHUNK_SIZE - posInDst % CHUNK_SIZE) values.length
  let numFirst := if valuesInFirstChunk < CHUNK_SIZE then valuesInFirstChunk else 0
  let dstBuffer ← if valuesInFirstChunk < CHUNK_SIZE then
      setPartialChunkInPlace (values.take numFirst) dstBuffer posInDst header
    else pure dstBuffer
  let rest := values.drop numFirst
  let dstBuffer ← setFullChunks rest dstBuffer (posInDst + numFirst) header
  let lastChunkStart := rest.length / CHUNK_SIZE * CHUNK_SIZE
  if 0 < rest.length - lastChunkStart then
    setPartialChunkInPlace (rest.drop lastChunkStart) dstBuffer
      (posInDst + numFirst + lastChunkStart) header
  else
    return dstBuffer

end IntegerBitpacking

def Uncompressed.setValuesFromUncompressed (values : List (BitVec t.width))
    (dstBuffer posInDst : ℕ) : ℕ :=
  values.zipIdx.foldl (fun buffer v =>
    BitField.set buffer (8 * ((posInDst + v.2) * t.numBytes)) t.width v.1.toNat) dstBuffer

namespace CompressionMetadata

def canAlwaysUpdateInPlace (metadata : CompressionMetadata) : Bool :=
  metadata.compression = .uncompressed

/-- `CompressionMetadata::canUpdateInPlace` of the values from `pos` on. -/
def canUpdateInPlace (metadata : CompressionMetadata) (data : List (BitVec t.width))
    (pos numValues : ℕ) (nullMask : Option NullMask) : Except String Bool :=
  let values := (data.drop pos).take numValues
  match metadata.compression with
  | .uncompressed => return true
  | .constant => pure (values.zipIdx.all fun v =>
      isNullRow nullMask (pos + v.2) || v.1 == metadata.min.get t)
  | .integerBitpacking => IntegerBitpacking.canUpdateInPlace values metadata nullMask pos

/-- `WriteCompressedValuesToPage`. -/
def writeValuesToFrame (metadata : CompressionMetadata) (values : List (BitVec t.width))
    (frame posInFrame : ℕ) : Except String ℕ :=
  match metadata.compression with
  | .constant => return frame
  | .uncompressed => return Uncompressed.setValuesFromUncompressed values frame posInFrame
  | .integerBitpacking =>
    IntegerBitpacking.setValuesFromUncompressed values frame posInFrame metadata

end CompressionMetadata

/-! ### Segments -/

namespace IntegerColumn

/-- `SegmentCheckpointState`: the rows `startRowInData, …` of a chunk are the new rows
`offsetInSegment, …` of the segment. -/
structure SegmentCheckpointState (t : IntType) where
  chunkData : List (BitVec t.width)
  nullMask : Option NullMask
  startRowInData : ℕ
  offsetInSegment : ℕ
  numRows : ℕ
  numRows_pos : 0 < numRows
  inData : startRowInData + numRows ≤ chunkData.length

namespace SegmentCheckpointState

def values (state : SegmentCheckpointState t) : List (BitVec t.width) :=
  (state.chunkData.drop state.startRowInData).take state.numRows

end SegmentCheckpointState

/-- `endRowIdxToWrite` of a `ColumnCheckpointState`. -/
def endRowIdxToWrite (states : List (SegmentCheckpointState t)) : ℕ :=
  states.foldl (fun endRow state => max endRow (state.offsetInSegment + state.numRows)) 0

def isEndOffsetOutOfPagesCapacity (t : IntType) (segment : StoredSegment) (endOffset : ℕ) :
    Except String Bool := do
  if segment.compMeta.compression = .constant then return false
  else
    return decide ((← segment.compMeta.numValues LBUG_PAGE_SIZE t) * segment.pages.length ≤
      endOffset)

def canCheckpointInPlace (segment : StoredSegment) (states : List (SegmentCheckpointState t)) :
    Except String Bool := do
  if ← isEndOffsetOutOfPagesCapacity t segment (endRowIdxToWrite states) then
    return false
  else if segment.compMeta.canAlwaysUpdateInPlace then
    return true
  else
    states.allM fun state =>
      segment.compMeta.canUpdateInPlace state.chunkData state.startRowInData state.numRows
        state.nullMask

/-- `updatePageWithCursor` with `WriteCompressedValuesToPage`; a constant segment has no pages. -/
def updatePage (metadata : CompressionMetadata) (pages : List ℕ) (pageIdx elemPosInPage : ℕ)
    (values : List (BitVec t.width)) : Except String (List ℕ) :=
  if metadata.compression = .constant then pure pages
  else match pages[pageIdx]? with
    | some frame =>
      (fun page => pages.set pageIdx page) <$>
        metadata.writeValuesToFrame values frame elemPosInPage
    | none => throw "the segment has no such page"

/-- The loop of `writeValuesToPage`, over at most `fuel` pages. -/
def writeValuesToPage (metadata : CompressionMetadata) (numValuesPerPage : ℕ) :
    ℕ → List ℕ → ℕ → ℕ → List (BitVec t.width) → Except String (List ℕ)
  | _, pages, _, _, [] => return pages
  | 0, _, _, _, _ :: _ => throw "values are left"
  | fuel + 1, pages, pageIdx, elemPosInPage, values => do
    let numValuesToWriteInPage := min values.length (numValuesPerPage - elemPosInPage)
    let pages ← updatePage metadata pages pageIdx elemPosInPage
      (values.take numValuesToWriteInPage)
    writeValuesToPage metadata numValuesPerPage fuel pages (pageIdx + 1) 0
      (values.drop numValuesToWriteInPage)

/-- The bounds after a write: a new maximum hides a new minimum. -/
def updateBounds (t : IntType) (metadata : CompressionMetadata) :
    Option StorageValue → Option StorageValue → CompressionMetadata
  | some min, some max =>
    if max.gt t metadata.max then { metadata with max := max }
    else if metadata.min.gt t min then { metadata with min := min }
    else metadata
  | _, _ => metadata

def updateStatistics (t : IntType) (segment : StoredSegment) (maxIndex : ℕ)
    (min max : Option StorageValue) : StoredSegment :=
  { segment with
    numValues := if maxIndex ≥ segment.numValues then maxIndex + 1 else segment.numValues
    compMeta := updateBounds t segment.compMeta min max }

/-- `writeSegment`: the pages are written with the metadata of the `SegmentState`. -/
def writeSegment (metadata : CompressionMetadata) (segment : StoredSegment)
    (state : SegmentCheckpointState t) : Except String StoredSegment := do
  let numValuesPerPage ← metadata.numValues LBUG_PAGE_SIZE t
  let pages ← writeValuesToPage metadata numValuesPerPage state.numRows segment.pages
    (state.offsetInSegment / numValuesPerPage) (state.offsetInSegment % numValuesPerPage)
    state.values
  let (min, max) := getTypedMinMax t state.values state.nullMask state.startRowInData
  return updateStatistics t { segment with pages := pages }
    (state.offsetInSegment + state.numRows - 1) min max

def checkpointColumnChunkInPlace (segment : StoredSegment)
    (states : List (SegmentCheckpointState t)) : Except String StoredSegment :=
  states.foldlM (writeSegment segment.compMeta) segment

end IntegerColumn

end Ladybug
