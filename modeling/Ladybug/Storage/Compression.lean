import Ladybug.Storage.BitpackingUtils

/-!
# Compression of integer columns

The values of a column segment are compressed page by page, with metadata that are computed from
their minimum and maximum: not at all when all values are the same (`CONSTANT`), with
`IntegerBitpacking` when the packed values are smaller than the type, and otherwise as they are
(`UNCOMPRESSED`). `IntegerBitpacking` subtracts an offset when this saves at least one bit per
value, and packs the result in chunks of 32 values.

The values of the null rows are compressed as well, but they do not count for the minimum and the
maximum.

The compression of booleans and of floating point numbers is left out, and `INTERNAL_ID` is
`uint64` here.
-/

namespace Ladybug

/-- The size of a page in bytes. -/
def LBUG_PAGE_SIZE : ℕ := 4096

/-- The largest `uint64_t`. -/
def UINT64_MAX : ℕ := 2 ^ 64 - 1

/-! ### Metadata -/

/-- `StorageValue`: the 16 bytes of the union. -/
abbrev StorageValue := BitVec 128

namespace StorageValue

/-- The constructors: a smaller value takes eight bytes, and the others are zero. -/
def ofValue : (t : IntType) → BitVec t.width → StorageValue
  | .int128, value => value
  | t, value =>
    if t.isSigned then (value.signExtend 64).setWidth 128 else (value.setWidth 64).setWidth 128

def get (t : IntType) (value : StorageValue) : BitVec t.width :=
  value.setWidth t.width

def gt : IntType → StorageValue → StorageValue → Bool
  | .int128, x, y => Int128.lessThan y x
  | t, x, y =>
    if t.isSigned then (y.setWidth 64).slt (x.setWidth 64) else (y.setWidth 64).ult (x.setWidth 64)

end StorageValue

inductive CompressionType where
  | uncompressed | integerBitpacking | constant
  deriving Repr, DecidableEq

structure CompressionMetadata where
  min : StorageValue
  max : StorageValue
  compression : CompressionType
  deriving Repr, DecidableEq

/-- `NullMask`: without `mayContainNulls` there is no null. -/
structure NullMask where
  data : List Bool
  mayContainNulls : Bool
  noNulls : mayContainNulls = false → ∀ null ∈ data, null = false

namespace NullMask

def isNull (mask : NullMask) (pos : ℕ) : Bool :=
  mask.data.getD pos false

def hasNoNullsGuarantee (mask : NullMask) : Bool :=
  !mask.mayContainNulls

end NullMask

/-- A row is null when there is a mask and it says so. -/
def isNullRow (nullMask : Option NullMask) (pos : ℕ) : Bool :=
  nullMask.any (·.isNull pos)

/-- Takes one more value into a minimum and a maximum. -/
def updateMinMax (t : IntType) (acc : Option StorageValue × Option StorageValue)
    (value : BitVec t.width) : Option StorageValue × Option StorageValue :=
  (if acc.1.all (fun min => t.lessThan value (min.get t)) then some (.ofValue t value) else acc.1,
    if acc.2.all (fun max => t.lessThan (max.get t) value) then some (.ofValue t value) else acc.2)

/-- `getTypedMinMax`: the minimum and the maximum of the values that are not null. -/
def getTypedMinMax (t : IntType) (data : List (BitVec t.width)) (nullMask : Option NullMask)
    (nullMaskOffset : ℕ) : Option StorageValue × Option StorageValue :=
  if nullMask.all (·.hasNoNullsGuarantee) then
    data.foldl (updateMinMax t) (none, none)
  else
    data.zipIdx.foldl
      (fun acc v => if isNullRow nullMask (nullMaskOffset + v.2) then acc
        else updateMinMax t acc v.1) (none, none)

/-! ### Integer bitpacking -/

structure BitpackInfo (t : IntType) where
  bitWidth : ℕ
  hasNegative : Bool
  offset : BitVec t.width
  deriving Repr, DecidableEq

namespace IntegerBitpacking

def CHUNK_SIZE : ℕ := 32

variable (t : IntType)

/-- All values are positive, and the offset saves at least one bit. -/
def positiveFrameOfReference (min max : BitVec t.width) : Except String Bool :=
  if t.lessThan 0 min && t.lessThan 0 max then do
    return decide (t.bitWidth (← t.sub max min) < t.bitWidth max)
  else
    return false

/-- All values are negative, and the offset saves at least one bit. -/
def negativeFrameOfReference (min max : BitVec t.width) : Except String Bool :=
  if t.lessThan min 0 && t.lessThan max 0 then do
    return decide (t.bitWidth (← t.sub min max) < t.bitWidth max)
  else
    return false

/-- The width of the larger one of the absolute values of `min` and `max`. -/
def absBitWidth (min max : BitVec t.width) : Except String ℕ := do
  let absMin ← t.abs min
  let absMax ← t.abs max
  return t.bitWidth (if t.lessThan absMin absMax then absMax else absMin)

def getPackingInfo (metadata : CompressionMetadata) : Except String (BitpackInfo t) := do
  let max := metadata.max.get t
  let min := metadata.min.get t
  if ← positiveFrameOfReference t min max then
    return ⟨t.bitWidth (← t.sub max min), false, min⟩
  else if ← negativeFrameOfReference t min max then
    return ⟨t.bitWidth (← t.sub min max) + 1, true, max⟩
  else if t.lessThan min 0 then
    return ⟨(← absBitWidth t min max) + 1, true, 0⟩
  else
    return ⟨← absBitWidth t min max, false, 0⟩

def numValues (dataSize : ℕ) (info : BitpackInfo t) : ℕ :=
  if info.bitWidth = 0 then UINT64_MAX else dataSize * 8 / info.bitWidth

variable {t}

def fastpack : {t : IntType} → List (BitVec t.width) → ℕ → ℕ → ℕ → ℕ
  | .int128, values, buffer, pos, bitWidth => Int128Packer.pack values buffer pos bitWidth
  | _, values, buffer, pos, bitWidth => FastPFor.fastpack values buffer pos bitWidth

def fastunpack : (t : IntType) → ℕ → ℕ → ℕ → List (BitVec t.width)
  | .int128, buffer, pos, bitWidth => Int128Packer.unpack buffer pos bitWidth
  | t, buffer, pos, bitWidth => FastPFor.fastunpack t.width buffer pos bitWidth

def packPartialChunk (values : List (BitVec t.width)) (buffer pos posInDst : ℕ)
    (info : BitpackInfo t) : ℕ :=
  values.zipIdx.foldl
    (fun buffer v => BitpackingUtils.packSingle t v.1 buffer pos info.bitWidth (v.2 + posInDst))
    buffer

def copyValuesToTempChunkWithOffset (values : List (BitVec t.width)) (info : BitpackInfo t) :
    Except String (List (BitVec t.width)) :=
  values.mapM fun value => t.sub value info.offset

/-- The values of a chunk as they are packed; without an offset they are not copied. -/
def tempChunk (values : List (BitVec t.width)) (info : BitpackInfo t) :
    Except String (List (BitVec t.width)) :=
  if info.offset = 0 then return values else copyValuesToTempChunkWithOffset values info

/-- The loop of `compressNextPage` over the full chunks, and the last partial chunk. -/
def packValues (values : List (BitVec t.width)) (dstBuffer : ℕ) (info : BitpackInfo t) :
    Except String ℕ := do
  let numChunks := values.length / CHUNK_SIZE
  let lastFullChunkEnd := numChunks * CHUNK_SIZE
  let dstBuffer ← (List.range numChunks).foldlM (fun buffer c => do
    let i := c * CHUNK_SIZE
    let tmp ← tempChunk ((values.drop i).take CHUNK_SIZE) info
    return fastpack tmp buffer (8 * (i * info.bitWidth / 8)) info.bitWidth) dstBuffer
  if 0 < values.length % CHUNK_SIZE then
    let tmp ← tempChunk (values.drop lastFullChunkEnd) info
    return packPartialChunk tmp dstBuffer (8 * (lastFullChunkEnd * info.bitWidth / 8)) 0 info
  else
    return dstBuffer

/-- `compressNextPage` for packed values: the page and the size of what was written. -/
def compressNextPage (src : List (BitVec t.width)) (dstBuffer dstBufferSize : ℕ)
    (metadata : CompressionMetadata) : Except String (ℕ × ℕ) := do
  let info ← getPackingInfo t metadata
  if info.bitWidth = 0 then
    return (dstBuffer, 0)
  else
    let numValuesToCompress := min src.length (numValues t dstBufferSize info)
    let sizeToCompress := numValuesToCompress * info.bitWidth / 8 +
      (if numValuesToCompress * info.bitWidth % 8 ≠ 0 then 1 else 0)
    let page ← packValues (src.take numValuesToCompress) dstBuffer info
    return (page, sizeToCompress)

/-- `SignExtend` of one value. -/
def signExtend (value : BitVec t.width) (width : ℕ) : Except String (BitVec t.width) :=
  let mask := t.shiftLeft 1 (width - 1)
  t.sub ((value &&& t.all1sMaskForLeastSignificantBits width) ^^^ mask) mask

/-- What is done with an unpacked value. -/
def decodeValue (info : BitpackInfo t) (out : BitVec t.width) :
    Except String (BitVec t.width) := do
  let out ← if info.hasNegative ∧ 0 < info.bitWidth then signExtend out info.bitWidth else pure out
  if info.offset ≠ 0 then t.addAssign out info.offset else return out

/-- `getValues`: `numValuesToRead` values of a chunk. -/
def getValues (buffer chunkStart pos numValuesToRead : ℕ) (info : BitpackInfo t) :
    Except String (List (BitVec t.width)) :=
  (List.range numValuesToRead).mapM fun i =>
    decodeValue info (BitpackingUtils.unpackSingle t buffer chunkStart info.bitWidth (pos + i))

/-- A full chunk: unpacked at once, then extended, then moved by the offset. -/
def getChunk (buffer chunkStart : ℕ) (info : BitpackInfo t) :
    Except String (List (BitVec t.width)) := do
  let out := fastunpack t buffer chunkStart info.bitWidth
  let out ← if info.hasNegative ∧ 0 < info.bitWidth then
      out.mapM fun value => signExtend value info.bitWidth else pure out
  if info.offset ≠ 0 then out.mapM fun value => t.addAssign value info.offset else return out

/-- The loop of `decompressFromPage` over the full chunks, and the rest of the last chunk. -/
def getAlignedValues (buffer srcCursor numValues : ℕ) (info : BitpackInfo t) :
    Except String (List (BitVec t.width)) := do
  let bitsPerChunk := 8 * (CHUNK_SIZE / 8 * info.bitWidth)
  let numChunks := numValues / CHUNK_SIZE
  let chunks ← (List.range numChunks).mapM fun c =>
    getChunk buffer (srcCursor + c * bitsPerChunk) info
  let rest ← getValues buffer (srcCursor + numChunks * bitsPerChunk) 0 (numValues % CHUNK_SIZE) info
  return chunks.flatten ++ rest

/-- `decompressFromPage`: the values `srcOffset, …, srcOffset + numValues - 1` of a page. -/
def decompressFromPage (t : IntType) (buffer srcOffset numValues : ℕ)
    (metadata : CompressionMetadata) : Except String (List (BitVec t.width)) := do
  let info ← getPackingInfo t metadata
  let srcCursor := 8 * (srcOffset / CHUNK_SIZE * info.bitWidth * CHUNK_SIZE / 8)
  let valuesInFirstChunk := min (CHUNK_SIZE - srcOffset % CHUNK_SIZE) numValues
  let bitsPerChunk := 8 * (CHUNK_SIZE / 8 * info.bitWidth)
  if valuesInFirstChunk < CHUNK_SIZE then
    let first ← getValues buffer srcCursor (srcOffset % CHUNK_SIZE) valuesInFirstChunk info
    if numValues = valuesInFirstChunk then
      return first
    else
      let rest ← getAlignedValues buffer (srcCursor + bitsPerChunk)
        (numValues - valuesInFirstChunk) info
      return first ++ rest
  else
    getAlignedValues buffer srcCursor numValues info

end IntegerBitpacking

/-! ### The other compressions -/

namespace Uncompressed

/-- `Uncompressed::compressNextPage`: the page and the size of what was copied. -/
def compressNextPage {t : IntType} (src : List (BitVec t.width)) (dstBuffer dstBufferSize : ℕ) :
    ℕ × ℕ :=
  let numValues := min src.length (dstBufferSize / t.numBytes)
  let page := (src.take numValues).zipIdx.foldl
    (fun buffer v => BitField.set buffer (8 * (v.2 * t.numBytes)) t.width v.1.toNat) dstBuffer
  (page, numValues * t.numBytes)

def decompressFromPage (t : IntType) (buffer srcOffset numValues : ℕ) : List (BitVec t.width) :=
  (List.range numValues).map fun i =>
    BitVec.ofNat t.width (BitField.get buffer (8 * ((srcOffset + i) * t.numBytes)) t.width)

end Uncompressed

namespace CompressionMetadata

/-- `CompressionMetadata::numValues`: how many values a page takes. -/
def numValues (metadata : CompressionMetadata) (dataSize : ℕ) (t : IntType) : Except String ℕ :=
  match metadata.compression with
  | .constant => return UINT64_MAX
  | .uncompressed => return dataSize / t.numBytes
  | .integerBitpacking => do
    return IntegerBitpacking.numValues t dataSize (← IntegerBitpacking.getPackingInfo t metadata)

/-- `compressNextPage` of the algorithm for a type, which is `IntegerBitpacking`. -/
def compressNextPage {t : IntType} (metadata : CompressionMetadata) (src : List (BitVec t.width))
    (dstBuffer dstBufferSize : ℕ) : Except String (ℕ × ℕ) :=
  if metadata.compression = .uncompressed then
    return Uncompressed.compressNextPage src dstBuffer dstBufferSize
  else
    IntegerBitpacking.compressNextPage src dstBuffer dstBufferSize metadata

/-- `ReadCompressedValuesFromPageToVector`. -/
def readValuesFromPage (metadata : CompressionMetadata) (t : IntType)
    (frame elemPosInPage numValuesToRead : ℕ) : Except String (List (BitVec t.width)) :=
  match metadata.compression with
  | .constant => return List.replicate numValuesToRead (metadata.min.get t)
  | .uncompressed => return Uncompressed.decompressFromPage t frame elemPosInPage numValuesToRead
  | .integerBitpacking =>
    IntegerBitpacking.decompressFromPage t frame elemPosInPage numValuesToRead metadata

end CompressionMetadata

/-! ### Segments -/

/-- A segment on disk: its `ColumnChunkMetadata` and its pages. -/
structure StoredSegment where
  compMeta : CompressionMetadata
  numValues : ℕ
  pages : List ℕ
  deriving Repr, DecidableEq

/-- `GetBitpackingMetadata`: the compression, and how many pages it takes. -/
def getBitpackingMetadata (t : IntType) (numValues : ℕ) (min max : StorageValue) :
    Except String (CompressionMetadata × ℕ) := do
  let compMeta : CompressionMetadata := ⟨min, max, .integerBitpacking⟩
  let info ← IntegerBitpacking.getPackingInfo t compMeta
  let compMeta := if info.bitWidth ≥ t.numBytes * 8 then ⟨min, max, .uncompressed⟩ else compMeta
  let numValuesPerPage ← compMeta.numValues LBUG_PAGE_SIZE t
  let numPages :=
    if numValuesPerPage = UINT64_MAX then 0
    else numValues / numValuesPerPage + (if numValues % numValuesPerPage = 0 then 0 else 1)
  return (compMeta, numPages)

def getCompressionMetadata (t : IntType) (numValues : ℕ) (min max : StorageValue) :
    Except String (CompressionMetadata × ℕ) :=
  if min = max then return (⟨min, max, .constant⟩, 0)
  else getBitpackingMetadata t numValues min max

def getMetadataToFlush (t : IntType) (values : List (BitVec t.width))
    (nullMask : Option NullMask) : Except String (CompressionMetadata × ℕ) :=
  let (min, max) := getTypedMinMax t values nullMask 0
  getCompressionMetadata t values.length (min.getD 0) (max.getD 0)

/-- The loop of `CompressedFlushBuffer`, with at most `fuel` pages: the buffer is used again for
each page, and what is behind the compressed values is cleared. -/
def writePages {t : IntType} (metadata : CompressionMetadata) (numValuesPerPage : ℕ) :
    ℕ → List (BitVec t.width) → ℕ → Except String (List ℕ)
  | _, [], _ => return []
  | 0, _ :: _, _ => throw "values are left"
  | fuel + 1, src, compressedBuffer => do
    let (page, compressedSize) ← metadata.compressNextPage src compressedBuffer LBUG_PAGE_SIZE
    let page :=
      if compressedSize < LBUG_PAGE_SIZE then
        BitField.set page (8 * compressedSize) (8 * (LBUG_PAGE_SIZE - compressedSize)) 0
      else page
    return page :: (← writePages metadata numValuesPerPage fuel (src.drop numValuesPerPage) page)

def flush (t : IntType) (values : List (BitVec t.width)) (nullMask : Option NullMask) :
    Except String StoredSegment := do
  let (compMeta, numPages) ← getMetadataToFlush t values nullMask
  if compMeta.compression = .constant ∨ values = [] then
    return ⟨compMeta, values.length, []⟩
  else
    let numValuesPerPage ← compMeta.numValues LBUG_PAGE_SIZE t
    let pages ← writePages compMeta numValuesPerPage values.length values 0
    return ⟨compMeta, values.length, pages ++ List.replicate (numPages - pages.length) 0⟩

namespace StoredSegment

/-- `readFromPage`; a constant segment has no pages and its values are not read from one. -/
def readFromPage (segment : StoredSegment) (pageIdx : ℕ) : Except String ℕ :=
  if segment.compMeta.compression = .constant then return 0
  else match segment.pages[pageIdx]? with
    | some frame => return frame
    | none => throw "the segment has no such page"

/-- The loop of `readCompressedValues`, over at most `fuel` pages. -/
def readPages (segment : StoredSegment) (t : IntType) (numValuesPerPage : ℕ) :
    ℕ → ℕ → ℕ → ℕ → Except String (List (BitVec t.width))
  | _, _, _, 0 => return []
  | 0, _, _, _ + 1 => throw "values are left"
  | fuel + 1, pageIdx, elemPosInPage, length => do
    let numValuesToScanInPage := min (numValuesPerPage - elemPosInPage) length
    let frame ← segment.readFromPage pageIdx
    let values ← segment.compMeta.readValuesFromPage t frame elemPosInPage numValuesToScanInPage
    let rest ← readPages segment t numValuesPerPage fuel (pageIdx + 1) 0
      (length - numValuesToScanInPage)
    return values ++ rest

/-- `readCompressedValues`: the values `startOffset, …, startOffset + length - 1` of a segment. -/
def readCompressedValues (segment : StoredSegment) (t : IntType) (startOffset length : ℕ) :
    Except String (List (BitVec t.width)) := do
  let numValuesPerPage ← segment.compMeta.numValues LBUG_PAGE_SIZE t
  readPages segment t numValuesPerPage length (startOffset / numValuesPerPage)
    (startOffset % numValuesPerPage) length

end StoredSegment

end Ladybug
