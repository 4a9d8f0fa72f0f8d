import Ladybug.Storage.ColumnChunk
import Mathlib.Order.BooleanAlgebra.Defs

/-!
# Zone maps

The data of a column chunk in memory keep a minimum and a maximum that every append and every write
updates (`inMemoryStats`), and the segments of a chunk on disk keep those of their metadata.
`getMergedColumnChunkStats` puts them together, with what is known about nulls from the same
numbers of the null data, which are data of booleans.

`V` is the type of the values and `key` says how they are compared: `gt` compares the keys, and a
value without a key is not a number. A row is a value and a null bit; the value of a null row is
what is in the buffer. `zero` is the default `StorageValue`.

What depends on the compression and on sizes (whether a segment can be written in place, where new
segments are split) is left to a `Policy`. Columns of strings, lists and structs have chunk data of
their own without a minimum and a maximum. They are left out, although their null data give the same
guarantees about nulls.
-/

namespace Ladybug.ZoneMap

variable {V K : Type} [LinearOrder K]

def gt (key : V → Option K) (x y : V) : Bool :=
  match key x, key y with
  | some a, some b => decide (b < a)
  | _, _ => false

structure ColumnChunkStats (V : Type) where
  min : Option V
  max : Option V
  deriving Repr, DecidableEq

namespace ColumnChunkStats

def empty : ColumnChunkStats V := ⟨none, none⟩

def update (key : V → Option K) (stats : ColumnChunkStats V) (newMin newMax : Option V) :
    ColumnChunkStats V where
  min := match stats.min with
    | none => newMin
    | some min => if newMin.any (gt key min) then newMin else some min
  max := match stats.max with
    | none => newMax
    | some max => if newMax.any (gt key · max) then newMax else some max

/-- Both bounds of other statistics. -/
def updateBy (key : V → Option K) (stats other : ColumnChunkStats V) : ColumnChunkStats V :=
  stats.update key other.min other.max

end ColumnChunkStats

/-! ### The minimum and the maximum of rows -/

/-- One more value in the loop of `getTypedMinMax`. -/
def minMaxStep (key : V → Option K) (acc : ColumnChunkStats V) (value : V) :
    ColumnChunkStats V where
  min := if acc.min.all (gt key · value) then some value else acc.min
  max := if acc.max.all (gt key value ·) then some value else acc.max

/-- `getTypedMinMax` of the values it looks at. -/
def getMinMax (key : V → Option K) (values : List V) : ColumnChunkStats V :=
  values.foldl (minMaxStep key) .empty

abbrev Row (V : Type) := V × Bool

def nonNull (rows : List (Row V)) : List V :=
  (rows.filter fun row => !row.2).map Prod.fst

/-- The values that `getTypedMinMax` looks at: with a guarantee that there are no nulls, all of
them. -/
def included (noNulls : Bool) (rows : List (Row V)) : List V :=
  if noNulls then rows.map Prod.fst else nonNull rows

/-- The minimum and the maximum of a vector with a filter, in `ColumnChunkData::updateStats`. -/
def filteredMinMax (key : V → Option K) (rows : List (Row V)) : ColumnChunkStats V :=
  match nonNull rows with
  | [] => .empty
  | first :: _ =>
    let bounds := (nonNull rows).foldl (fun bounds value =>
      if gt key bounds.1 value then (value, bounds.2)
      else if gt key value bounds.2 then (bounds.1, value)
      else bounds) (first, first)
    ⟨some bounds.1, some bounds.2⟩

/-- Booleans are compared as numbers. -/
def boolKey : Bool → Option Bool := some

/-! ### Chunk data in memory -/

inductive ColumnKind where
  | storageValue | bool | internalID | other
  deriving Repr, DecidableEq

namespace ColumnKind

/-- Types with a `StorageValue`. -/
def isStorageValueType : ColumnKind → Bool
  | .storageValue | .bool => true
  | .internalID | .other => false

/-- The types for which `ColumnChunkStats::update` looks at a chunk. -/
def updatesStats (kind : ColumnKind) : Bool :=
  kind.isStorageValueType || kind = .internalID

end ColumnKind

/-- `ColumnChunkData` in memory: its buffer and how much of it is used. -/
structure InMemoryData (V : Type) where
  kind : ColumnKind
  cells : List (Row V)
  numValues : ℕ
  hasNullData : Bool
  inMemoryStats : ColumnChunkStats V
  nullStats : ColumnChunkStats Bool
  deriving Repr, DecidableEq

structure MergedColumnChunkStats (V : Type) where
  stats : ColumnChunkStats V
  guaranteedNoNulls : Bool
  guaranteedAllNulls : Bool
  deriving Repr, DecidableEq

namespace InMemoryData

def create (kind : ColumnKind) (zero : V) (capacity : ℕ) (hasNullData : Bool) : InMemoryData V :=
  ⟨kind, List.replicate capacity (zero, false), 0, hasNullData, .empty, .empty⟩

def rows (data : InMemoryData V) : List (Row V) :=
  data.cells.take data.numValues

/-- Writes rows into the buffer; without null data their null bits are lost. -/
def writeCells (data : InMemoryData V) (offset : ℕ) (rows : List (Row V)) :
    Option (InMemoryData V) :=
  if offset + rows.length ≤ data.cells.length then
    let stored := rows.map fun row => (row.1, data.hasNullData && row.2)
    some { data with
      cells := data.cells.take offset ++ stored ++ data.cells.drop (offset + rows.length)
      numValues := max data.numValues (offset + rows.length)
      nullStats := data.nullStats.updateBy boolKey (getMinMax boolKey (stored.map Prod.snd)) }
  else none

/-- Writes values over the values of the buffer that are not null, with the null bits as they
are. -/
def writeValuesOnly (data : InMemoryData V) (offset : ℕ) (rows : List (Row V)) :
    Option (InMemoryData V) :=
  if offset + rows.length ≤ data.cells.length then
    let stored := List.zipWith (fun row (cell : Row V) => if row.2 then cell else (row.1, cell.2))
      rows (data.cells.drop offset)
    some { data with
      cells := data.cells.take offset ++ stored ++ data.cells.drop (offset + rows.length)
      numValues := max data.numValues (offset + rows.length) }
  else none

/-- `append` of the selected rows of a vector.  Without a filter, the statistics are those of the
whole vector, with the rows `behind` the selected ones. -/
def appendVector (key : V → Option K) (data : InMemoryData V) (rows behind : List (Row V))
    (filtered : Bool) : Option (InMemoryData V) :=
  match data.kind with
  | .internalID => data.writeValuesOnly data.numValues rows
  | .other => data.writeCells data.numValues rows
  | _ => do
    let data' ← data.writeCells data.numValues rows
    let minMax := if filtered then filteredMinMax key rows
      else getMinMax key (nonNull (rows ++ behind))
    return { data' with inMemoryStats := data.inMemoryStats.updateBy key minMax }

/-- `write` and `append` of rows of another chunk. -/
def writeChunk (key : V → Option K) (data : InMemoryData V) (rows : List (Row V)) (noNulls : Bool)
    (dstOffsetInChunk : ℕ) : Option (InMemoryData V) := do
  let data' ← data.writeCells dstOffsetInChunk rows
  if data.kind.updatesStats then
    return { data' with inMemoryStats :=
      data.inMemoryStats.updateBy key (getMinMax key (included noNulls rows)) }
  else return data'

def appendChunk (key : V → Option K) (data : InMemoryData V) (rows : List (Row V))
    (noNulls : Bool) : Option (InMemoryData V) :=
  data.writeChunk key rows noNulls data.numValues

/-- `write` of a chunk to the given offsets: with multiplicity `ONE`, a null row cannot be
written. -/
def writeChunkAt (key : V → Option K) (data : InMemoryData V) (entries : List (Row V × ℕ))
    (noNulls multiplicityOne : Bool) : Option (InMemoryData V) := do
  let data' ← entries.foldlM (fun data entry =>
    if multiplicityOne && data.kind != .bool && (data.cells[entry.2]?).any (·.2) then none
    else data.writeCells entry.2 [entry.1]) data
  if data.kind.updatesStats then
    return { data' with inMemoryStats :=
      data.inMemoryStats.updateBy key (getMinMax key (included noNulls (entries.map Prod.fst))) }
  else return data'

def setValue (key : V → Option K) (data : InMemoryData V) (value : V) (pos : ℕ) :
    Option (InMemoryData V) := do
  let data' ← data.writeValuesOnly pos [(value, false)]
  if data.kind.updatesStats then
    return { data' with inMemoryStats := data.inMemoryStats.update key (some value) (some value) }
  else return data'

/-- `write` of one row of a vector: the value of a null row is not copied, except for booleans. -/
def writeVector (key : V → Option K) (data : InMemoryData V) (row : Row V) (offsetInChunk : ℕ) :
    Option (InMemoryData V) :=
  match data.kind with
  | .internalID => data.writeValuesOnly offsetInChunk [row]
  | .bool => do
    let data' ← data.writeCells offsetInChunk [row]
    return { data' with inMemoryStats := data.inMemoryStats.update key (some row.1) (some row.1) }
  | _ => do
    let cell ← data.cells[offsetInChunk]?
    let data' ← data.writeCells offsetInChunk [(if row.2 then cell.1 else row.1, row.2)]
    if data.kind.isStorageValueType then
      return { data' with inMemoryStats :=
        data.inMemoryStats.updateBy key (getMinMax key (nonNull [row])) }
    else return data'

def resize (zero : V) (data : InMemoryData V) (newCapacity : ℕ) : InMemoryData V :=
  { data with cells := data.cells ++
      List.replicate (newCapacity - data.cells.length) (zero, false) }

/-- `noNullsGuaranteedInMem` of the null data. -/
def noNullsGuaranteedInMem (data : InMemoryData V) : Bool :=
  data.nullStats.max.all (!·)

/-- `getMergedColumnChunkStats` of data that have never been on disk: their metadata are the
default ones. -/
def getMergedColumnChunkStats (key : V → Option K) (zero : V) (data : InMemoryData V) :
    MergedColumnChunkStats V where
  stats := if data.kind.isStorageValueType then
      data.inMemoryStats.update key (some zero) (some zero)
    else data.inMemoryStats
  guaranteedNoNulls := !data.hasNullData || data.noNullsGuaranteedInMem
  guaranteedAllNulls := false

end InMemoryData

/-! ### Segments on disk -/

/-- `ColumnChunkData` on disk: the rows that are read from it, and the minima and maxima of the
metadata of its values and of its null data. -/
structure OnDiskData (V : Type) where
  kind : ColumnKind
  rows : List (Row V)
  hasNullData : Bool
  min : V
  max : V
  nullMin : Bool
  nullMax : Bool
  deriving Repr, DecidableEq

/-- What depends on compression and on sizes. -/
structure Policy (V : Type) where
  /-- `canCheckpointInPlace` of the column. -/
  canCheckpointInPlace : OnDiskData V → List (SegmentCheckpointState (Row V)) → Bool
  /-- `canCheckpointInPlace` of the column of null bits. -/
  canCheckpointNullsInPlace : OnDiskData V → List (SegmentCheckpointState (Row V)) → Bool
  /-- `noNullsGuaranteedInMem` of new values. -/
  noNulls : List (Row V) → Bool
  /-- The segments of new data; none when they are not split. -/
  split : List (Row V) → List (List (Row V))
  split_flatten : ∀ rows, split rows ≠ [] → (split rows).flatten = rows

namespace OnDiskData

/-- `getMergedColumnChunkStats` of data on disk: nothing is left of the statistics in memory. -/
def getMergedColumnChunkStats (data : OnDiskData V) : MergedColumnChunkStats V where
  stats := if data.kind.isStorageValueType then ⟨some data.min, some data.max⟩ else .empty
  guaranteedNoNulls := !data.hasNullData || !data.nullMax
  guaranteedAllNulls := data.hasNullData && data.nullMin

/-- `flush`: the metadata are those of the rows (`getMetadataToFlush`). -/
def flush (key : V → Option K) (zero : V) (kind : ColumnKind) (hasNullData : Bool)
    (rows : List (Row V)) (noNulls : Bool) : OnDiskData V :=
  let minMax := getMinMax key (included (!hasNullData || noNulls) rows)
  let nullMinMax := getMinMax boolKey (rows.map Prod.snd)
  ⟨kind, rows, hasNullData, minMax.min.getD zero, minMax.max.getD zero,
    nullMinMax.min.getD false, nullMinMax.max.getD false⟩

/-- The segments into which new data are flushed. -/
def flushSegments (key : V → Option K) (zero : V) (policy : Policy V) (kind : ColumnKind)
    (hasNullData : Bool) (rows : List (Row V)) (noNulls : Bool) : List (OnDiskData V) :=
  match policy.split rows with
  | [] => [flush key zero kind hasNullData rows noNulls]
  | segments => segments.map fun segment => flush key zero kind hasNullData segment
      ((segment.map Prod.snd).all (!·))

end OnDiskData

/-- `Column::updateStatistics`: when the maximum is raised, the minimum is not looked at. -/
def updateStatistics (key : V → Option K) (bounds : V × V) (written : ColumnChunkStats V) : V × V :=
  match written.min, written.max with
  | some min, some max =>
    if gt key max bounds.2 then (bounds.1, max)
    else if gt key bounds.1 min then (min, bounds.2)
    else bounds
  | _, _ => bounds

/-- The rows that a state writes. -/
def writtenRows (hasNullData : Bool) (s : SegmentCheckpointState (Row V)) : List (Row V) :=
  ((s.chunkData.drop s.startRowInData).take s.numRows).map fun row => (row.1, hasNullData && row.2)

/-- The rows of a segment after the writes of the states. -/
def writeStates (hasNullData : Bool) (rows : List (Row V))
    (states : List (SegmentCheckpointState (Row V))) : Option (List (Row V)) :=
  states.foldlM (fun rows s =>
    writeValues rows (s.chunkData.map fun row => (row.1, hasNullData && row.2)) s.startRowInData
      s.offsetInSegment s.numRows) rows

namespace OnDiskData

/-- The statistics after `checkpointColumnChunkInPlace`. -/
def boundsInPlace (key : V → Option K) (policy : Policy V) (data : OnDiskData V)
    (states : List (SegmentCheckpointState (Row V))) : V × V :=
  states.foldl
    (fun bounds s => updateStatistics key bounds (getMinMax key
      (included (!data.hasNullData || policy.noNulls s.chunkData)
        (writtenRows data.hasNullData s))))
    (data.min, data.max)

/-- The statistics of the null data after they have been written in place. -/
def nullBoundsInPlace (data : OnDiskData V) (states : List (SegmentCheckpointState (Row V))) :
    Bool × Bool :=
  states.foldl
    (fun bounds s => updateStatistics boolKey bounds
      (getMinMax boolKey ((writtenRows data.hasNullData s).map Prod.snd)))
    (data.nullMin, data.nullMax)

/-- `checkpointSegment`: the segments that take the place of a segment. -/
def checkpointSegment (key : V → Option K) (zero : V) (policy : Policy V) (data : OnDiskData V)
    (states : List (SegmentCheckpointState (Row V))) : Option (List (OnDiskData V)) :=
  if states.isEmpty then some [data]
  else do
    let rows ← writeStates data.hasNullData data.rows states
    if policy.canCheckpointInPlace data states then
      let bounds := data.boundsInPlace key policy states
      let nullMinMax := getMinMax boolKey (rows.map Prod.snd)
      let nullBounds :=
        if policy.canCheckpointNullsInPlace data states then data.nullBoundsInPlace states
        else (nullMinMax.min.getD false, nullMinMax.max.getD false)
      return [⟨data.kind, rows, data.hasNullData, bounds.1, bounds.2, nullBounds.1, nullBounds.2⟩]
    else
      -- the null bits that were read from disk are not in the statistics in memory
      return flushSegments key zero policy data.kind data.hasNullData rows
        (states.all fun s => ((writtenRows data.hasNullData s).map Prod.snd).all (!·))

end OnDiskData

/-! ### Histories of a chunk -/

/-- A column chunk in memory has one segment. -/
inductive Chunk (V : Type) where
  | inMemory (data : InMemoryData V)
  | onDisk (segments : List (OnDiskData V))
  deriving Repr, DecidableEq

/-- What can be done to a chunk. -/
inductive Operation (V : Type) where
  | appendVector (rows behind : List (Row V)) (filtered : Bool)
  | appendChunk (rows : List (Row V)) (noNulls : Bool)
  | writeVector (row : Row V) (offsetInChunk : ℕ)
  | writeChunk (rows : List (Row V)) (noNulls : Bool) (dstOffsetInChunk : ℕ)
  | writeChunkAt (entries : List (Row V × ℕ)) (noNulls multiplicityOne : Bool)
  | setValue (value : V) (pos : ℕ)
  | resize (newCapacity : ℕ)
  | flush
  | checkpoint (states : List (ChunkCheckpointState (Row V)))
  deriving Repr, DecidableEq

namespace Chunk

def rows : Chunk V → List (Row V)
  | inMemory data => data.rows
  | onDisk segments => segments.flatMap OnDiskData.rows

/-- The loop of `checkpoint` over the segments. -/
def checkpointLoop (key : V → Option K) (zero : V) (policy : Policy V)
    (states : List (ChunkCheckpointState (Row V))) :
    ℕ → List (OnDiskData V) → Option (List (OnDiskData V))
  | _, [] => some []
  | segmentStart, segment :: segments => do
    let newSegments ← segment.checkpointSegment key zero policy (states.filterMap
      (ColumnChunk.segmentState segmentStart segment.rows.length segments.isEmpty))
    let rest ← checkpointLoop key zero policy states (segmentStart + segment.rows.length) segments
    return newSegments ++ rest

def step (key : V → Option K) (zero : V) (policy : Policy V) :
    Chunk V → Operation V → Option (Chunk V)
  | inMemory data, .appendVector rows behind filtered =>
    inMemory <$> data.appendVector key rows behind filtered
  | inMemory data, .appendChunk rows noNulls => inMemory <$> data.appendChunk key rows noNulls
  | inMemory data, .writeVector row offset => inMemory <$> data.writeVector key row offset
  | inMemory data, .writeChunk rows noNulls dst => inMemory <$> data.writeChunk key rows noNulls dst
  | inMemory data, .writeChunkAt entries noNulls multiplicityOne =>
    inMemory <$> data.writeChunkAt key entries noNulls multiplicityOne
  | inMemory data, .setValue value pos => inMemory <$> data.setValue key value pos
  | inMemory data, .resize newCapacity => some (inMemory (data.resize zero newCapacity))
  | inMemory data, .flush => some (onDisk (OnDiskData.flushSegments key zero policy data.kind
      data.hasNullData data.rows data.noNullsGuaranteedInMem))
  | onDisk segments, .checkpoint states =>
    onDisk <$> checkpointLoop key zero policy states 0 segments
  | _, _ => none

/-- `MergedColumnChunkStats::merge`. -/
def mergeStats (key : V → Option K) (base other : MergedColumnChunkStats V) :
    MergedColumnChunkStats V where
  stats := base.stats.updateBy key other.stats
  guaranteedNoNulls := base.guaranteedNoNulls && other.guaranteedNoNulls
  guaranteedAllNulls := base.guaranteedAllNulls && other.guaranteedAllNulls

def getMergedColumnChunkStats (key : V → Option K) (zero : V) : Chunk V → MergedColumnChunkStats V
  | inMemory data =>
    mergeStats key ⟨.empty, true, true⟩ (data.getMergedColumnChunkStats key zero)
  | onDisk segments => (segments.map OnDiskData.getMergedColumnChunkStats).foldl (mergeStats key)
      ⟨.empty, true, true⟩

end Chunk

end Ladybug.ZoneMap
