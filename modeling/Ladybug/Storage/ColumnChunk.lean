import Ladybug.Storage.UpdateInfo

/-!
# Column chunks

A column chunk keeps the values of a column for the rows of a chunked group, in one or several
segments. A checkpoint writes new values over the segments of a chunk on disk; the last segment
takes the values of new rows.

A segment is the list of its values here, of type `V`.
-/

namespace Ladybug

variable {V : Type}

/-- `ChunkCheckpointState`: values for the rows `startRow, …, startRow + numRows - 1`. -/
structure ChunkCheckpointState (V : Type) where
  chunkData : List V
  startRow : ℕ
  numRows : ℕ
  deriving Repr, DecidableEq

/-- `SegmentCheckpointState`: the part of a state that one segment gets. -/
structure SegmentCheckpointState (V : Type) where
  chunkData : List V
  startRowInData : ℕ
  offsetInSegment : ℕ
  numRows : ℕ
  deriving Repr, DecidableEq

/-- `ColumnChunkData::write`: copies `numValuesToCopy` values; `none` when it would read behind the
source or leave a gap. -/
def writeValues (values : List V) (srcChunk : List V)
    (srcOffsetInChunk dstOffsetInChunk numValuesToCopy : ℕ) : Option (List V) :=
  if srcOffsetInChunk + numValuesToCopy ≤ srcChunk.length ∧ dstOffsetInChunk ≤ values.length then
    some (values.take dstOffsetInChunk ++ (srcChunk.drop srcOffsetInChunk).take numValuesToCopy ++
      values.drop (dstOffsetInChunk + numValuesToCopy))
  else none

namespace ColumnChunk

/-- The part of a state that a segment gets in `checkpoint`; the last segment takes what lies
behind the chunk. -/
def segmentState (segmentStart numValues : ℕ) (isLastSegment : Bool)
    (state : ChunkCheckpointState V) : Option (SegmentCheckpointState V) :=
  if segmentStart < state.startRow + state.numRows ∧
      (isLastSegment ∨ state.startRow < segmentStart + numValues) then
    let startOffset := max state.startRow segmentStart
    let endOffset :=
      if isLastSegment then state.startRow + state.numRows
      else min (state.startRow + state.numRows) (segmentStart + numValues)
    some ⟨state.chunkData, startOffset - state.startRow, startOffset - segmentStart,
      endOffset - startOffset⟩
  else none

end ColumnChunk

end Ladybug
