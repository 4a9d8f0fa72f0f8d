import Ladybug.Storage.VersionInfo
import Mathlib.Data.List.DropRight

/-!
# Node groups

The rows of a node group lie in *chunked groups*. A chunked group keeps one column chunk per
column, the number of its rows, and the version info that says which rows a transaction sees.
The column chunks count their values themselves: an append writes behind the values a chunk
holds, not behind the rows of the group.

A writer appends one batch of rows and is then committed or rolled back through the undo record
of the batch, which names its first row and its length.

`cap` is `DEFAULT_VECTOR_CAPACITY`, `chunkCap` is `CHUNKED_NODE_GROUP_CAPACITY`, `m` is the number
of columns and `V` the type of the values.
-/

namespace Ladybug

/-- `ResidencyState`, for the groups of a node group. -/
inductive ResidencyState where
  | inMemory
  | onDisk
  deriving Repr, DecidableEq

/-- `ChunkedNodeGroup`.  A column chunk is the list of its `numValues` values. -/
structure ChunkedNodeGroup (cap m : ℕ) (V : Type) where
  residencyState : ResidencyState
  startRowIdx : ℕ
  capacity : ℕ
  numRows : ℕ
  chunks : Fin m → List V
  versionInfo : Option (VersionInfo cap)

/-- A row that a scan or a lookup puts out: its index in the node group, and per column the value
read from the chunk. -/
abbrev OutputRow (m : ℕ) (V : Type) := ℕ × (Fin m → Option V)

namespace ChunkedNodeGroup

variable {cap m : ℕ} {V : Type}

/-- A new group without rows, as `NodeGroup::append` makes it. -/
def create (capacity startRowIdx : ℕ) : ChunkedNodeGroup cap m V where
  residencyState := .inMemory
  startRowIdx := startRowIdx
  capacity := capacity
  numRows := 0
  chunks := fun _ => []
  versionInfo := none

def isFullOrOnDisk (g : ChunkedNodeGroup cap m V) : Bool :=
  g.numRows = g.capacity || g.residencyState = .onDisk

/-- `append`: the number of rows that fit, and the group with them.  Every chunk appends at its
own `numValues`, which is asserted to leave room for the values. -/
def append (g : ChunkedNodeGroup cap m V) (transactionID : ℕ) (columnVectors : Fin m → List V)
    (startRowInVectors numValuesToAppend : ℕ) : Option (ℕ × ChunkedNodeGroup cap m V) := do
  guard (g.residencyState ≠ .onDisk)
  let numRowsToAppendInChunk := min numValuesToAppend (g.capacity - g.numRows)
  guard (∀ c, (g.chunks c).length + numRowsToAppendInChunk ≤ g.capacity)
  let versionInfo ← (g.versionInfo.getD {}).append transactionID g.numRows numRowsToAppendInChunk
  return (numRowsToAppendInChunk,
    { g with
      chunks := fun c =>
        g.chunks c ++ ((columnVectors c).drop startRowInVectors).take numRowsToAppendInChunk
      versionInfo := some versionInfo
      numRows := g.numRows + numRowsToAppendInChunk })

def truncate (g : ChunkedNodeGroup cap m V) (numRows : ℕ) : ChunkedNodeGroup cap m V :=
  { g with chunks := fun c => (g.chunks c).take numRows, numRows := numRows }

def commitInsert (commitTS : ℕ) (g : ChunkedNodeGroup cap m V) (startRow numRowsToCommit : ℕ) :
    Option (ChunkedNodeGroup cap m V) := do
  let versionInfo ← (← g.versionInfo).commitInsert startRow numRowsToCommit commitTS
  return { g with versionInfo := some versionInfo }

/-- `rollbackInsert`: the chunks are cut only when no row of the group is left. -/
def rollbackInsert (g : ChunkedNodeGroup cap m V) (startRow numRows : ℕ) :
    Option (ChunkedNodeGroup cap m V) :=
  if startRow = 0 then
    some { g.truncate 0 with versionInfo := none }
  else if g.numRows ≤ startRow then
    some g
  else do
    let versionInfo ← (← g.versionInfo).rollbackInsert startRow numRows
    return { g with versionInfo := some versionInfo, numRows := startRow }

/-- The output row of row `row` of the group. -/
def rowAt (g : ChunkedNodeGroup cap m V) (row : ℕ) : OutputRow m V :=
  (g.startRowIdx + row, fun c => (g.chunks c)[row]?)

/-- `scan`, of the row indexes and all columns: the selection vector it leaves and the rows it
selects. -/
def scan (g : ChunkedNodeGroup cap m V) (T : Transaction) (selVector : SelectionVector)
    (rowIdxInGroup numRowsToScan : ℕ) : Option (SelectionVector × List (OutputRow m V)) := do
  guard (rowIdxInGroup + numRowsToScan ≤ g.numRows)
  let selVector ←
    match g.versionInfo with
    | some versionInfo =>
      versionInfo.getSelVectorToScan T.startTS T.id selVector rowIdxInGroup numRowsToScan
    | none => some (selVector.setToUnfiltered numRowsToScan)
  return (selVector, selVector.getSelectedPositions.map fun pos => g.rowAt (rowIdxInGroup + pos))

/-- `lookup`: the row, or nothing if the transaction does not see it. -/
def lookup (g : ChunkedNodeGroup cap m V) (T : Transaction) (rowIdxInChunk : ℕ) :
    Option (Option (OutputRow m V)) := do
  guard (rowIdxInChunk + 1 ≤ g.numRows)
  let hasValuesToRead ←
    match g.versionInfo with
    | some versionInfo => versionInfo.isSelected T.startTS T.id rowIdxInChunk
    | none => some true
  return if hasValuesToRead then some (g.rowAt rowIdxInChunk) else none

end ChunkedNodeGroup

structure NodeGroup (cap m : ℕ) (V : Type) where
  chunkedGroups : List (ChunkedNodeGroup cap m V)
  numRows : ℕ

/-- The state of a scan: `chunkedGroupIdx` and `nextRowToScan` of `NodeGroupScanState`, and the
selection vector of the output. -/
structure NodeGroupScanState where
  chunkedGroupIdx : ℕ
  nextRowToScan : ℕ
  selVector : SelectionVector

namespace NodeGroup

variable {cap m : ℕ} {V : Type}

def empty : NodeGroup cap m V := ⟨[], 0⟩

/-- A node group as it is loaded from a checkpoint: one group on disk. -/
def ofPersistent (startRowIdx capacity numRows : ℕ) (chunks : Fin m → List V) :
    NodeGroup cap m V where
  chunkedGroups := [⟨.onDisk, startRowIdx, capacity, numRows, chunks, none⟩]
  numRows := startRowIdx + numRows

/-- One round of the loop of `append` adds a group when the last one takes no more rows. -/
def ensureLastGroup (chunkCap startRowIdx : ℕ) (groups : List (ChunkedNodeGroup cap m V)) :
    List (ChunkedNodeGroup cap m V) :=
  match groups.getLast? with
  | some last =>
    if last.isFullOrOnDisk then groups ++ [.create chunkCap startRowIdx] else groups
  | none => groups ++ [.create chunkCap startRowIdx]

/-- The loop of `append`, in at most `fuel` rounds. -/
def appendLoop (chunkCap transactionID : ℕ) (columnVectors : Fin m → List V)
    (startRowIdx numRowsToAppend numRowsBeforeAppend : ℕ) :
    ℕ → List (ChunkedNodeGroup cap m V) → ℕ → Option (List (ChunkedNodeGroup cap m V))
  | fuel, groups, numRowsAppended =>
    if numRowsToAppend ≤ numRowsAppended then
      some groups
    else
      match fuel with
      | 0 => none
      | fuel + 1 => do
        let groups := ensureLastGroup chunkCap (numRowsBeforeAppend + numRowsAppended) groups
        let last ← groups.getLast?
        let numRowsToAppendInGroup :=
          min (numRowsToAppend - numRowsAppended) (chunkCap - last.numRows)
        let (_, last) ← last.append transactionID columnVectors (startRowIdx + numRowsAppended)
          numRowsToAppendInGroup
        appendLoop chunkCap transactionID columnVectors startRowIdx numRowsToAppend
          numRowsBeforeAppend fuel (groups.dropLast ++ [last])
          (numRowsAppended + numRowsToAppendInGroup)

def append (ng : NodeGroup cap m V) (chunkCap transactionID : ℕ) (columnVectors : Fin m → List V)
    (startRowIdx numRowsToAppend : ℕ) : Option (NodeGroup cap m V) := do
  let groups :=
    if ng.chunkedGroups = [] then [.create chunkCap 0] else ng.chunkedGroups
  let groups ← appendLoop chunkCap transactionID columnVectors startRowIdx numRowsToAppend
    ng.numRows numRowsToAppend groups 0
  return { chunkedGroups := groups, numRows := ng.numRows + numRowsToAppend }

/-- `findChunkedGroupIdxFromRowIdxNoLock`: the group and the row inside it. -/
def findChunkedGroupIdxFromRowIdx (ng : NodeGroup cap m V) (chunkCap rowIdx : ℕ) :
    Option (ℕ × ℕ) :=
  match ng.chunkedGroups with
  | [] => none
  | first :: _ =>
    if rowIdx < first.startRowIdx then
      none
    else if rowIdx - first.startRowIdx < first.numRows then
      some (0, rowIdx - first.startRowIdx)
    else
      let rowIdx := rowIdx - first.startRowIdx - first.numRows
      if ng.chunkedGroups.length ≤ rowIdx / chunkCap + 1 then
        none
      else
        some (rowIdx / chunkCap + 1, rowIdx % chunkCap)

/-- The loop of `applyFuncToChunkedGroups`, over the groups from the first one it changes. The
difference `g.numRows - curStartRowIdxInChunk` would wrap around in the source where it is 0 here;
that needs a record which starts behind the rows of its group. -/
def applyFuncLoop
    (func : ChunkedNodeGroup cap m V → ℕ → ℕ → Option (ChunkedNodeGroup cap m V)) :
    List (ChunkedNodeGroup cap m V) → ℕ → ℕ → Option (List (ChunkedNodeGroup cap m V))
  | [], _, _ => some []
  | g :: groups, curStartRowIdxInChunk, numRowsLeft =>
    if numRowsLeft = 0 then
      some (g :: groups)
    else do
      let numRowsForGroup := min numRowsLeft (g.numRows - curStartRowIdxInChunk)
      let g ← func g curStartRowIdxInChunk numRowsForGroup
      let groups ← applyFuncLoop func groups 0 (numRowsLeft - numRowsForGroup)
      return g :: groups

def applyFuncToChunkedGroups (ng : NodeGroup cap m V) (chunkCap : ℕ)
    (func : ChunkedNodeGroup cap m V → ℕ → ℕ → Option (ChunkedNodeGroup cap m V))
    (startRow numRows : ℕ) : Option (NodeGroup cap m V) := do
  guard (startRow ≤ ng.numRows)
  match ng.findChunkedGroupIdxFromRowIdx chunkCap startRow with
  | none => return ng
  | some (idx, startRowInChunkedGroup) =>
    let groups ← applyFuncLoop func (ng.chunkedGroups.drop idx) startRowInChunkedGroup numRows
    return { ng with chunkedGroups := ng.chunkedGroups.take idx ++ groups }

/-- `rollbackInsert`: drops the empty groups at the end. -/
def rollbackInsert (ng : NodeGroup cap m V) (startRow : ℕ) : NodeGroup cap m V where
  chunkedGroups := ng.chunkedGroups.rdropWhile (·.numRows = 0)
  numRows := startRow

/-- `scan`: one vector of rows, or nothing at the end of the node group. -/
def scan (ng : NodeGroup cap m V) (T : Transaction) (state : NodeGroupScanState) :
    Option (NodeGroupScanState × Option (List (OutputRow m V))) := do
  let g ← ng.chunkedGroups[state.chunkedGroupIdx]?
  let idx :=
    if g.numRows + g.startRowIdx ≤ state.nextRowToScan then state.chunkedGroupIdx + 1
    else state.chunkedGroupIdx
  if ng.chunkedGroups.length ≤ idx then
    return ({ state with chunkedGroupIdx := idx }, none)
  else
    let g ← ng.chunkedGroups[idx]?
    guard (g.startRowIdx ≤ state.nextRowToScan)
    let rowIdxInChunkToScan := state.nextRowToScan - g.startRowIdx
    let numRowsToScan := min (g.numRows - rowIdxInChunkToScan) cap
    let (selVector, rows) ← g.scan T state.selVector rowIdxInChunkToScan numRowsToScan
    return (⟨idx, state.nextRowToScan + numRowsToScan, selVector⟩, some rows)

/-- The scans of an operator that reads the node group to its end, at most `fuel` of them. -/
def scanLoop (ng : NodeGroup cap m V) (T : Transaction) :
    ℕ → NodeGroupScanState → Option (List (OutputRow m V))
  | 0, _ => none
  | fuel + 1, state => do
    match ← ng.scan T state with
    | (_, none) => return []
    | (state, some rows) => return rows ++ (← scanLoop ng T fuel state)

/-- `initializeScanState` and the scans until the end. -/
def scanAll (ng : NodeGroup cap m V) (T : Transaction) (selVector : SelectionVector)
    (fuel : ℕ) : Option (List (OutputRow m V)) := do
  let first ← ng.chunkedGroups.head?
  ng.scanLoop T fuel ⟨0, first.startRowIdx, selVector⟩

def lookup (ng : NodeGroup cap m V) (chunkCap : ℕ) (T : Transaction) (rowIdx : ℕ) :
    Option (Option (OutputRow m V)) := do
  let (idx, _) ← ng.findChunkedGroupIdxFromRowIdx chunkCap rowIdx
  let g ← ng.chunkedGroups[idx]?
  g.lookup T (rowIdx - g.startRowIdx)

end NodeGroup

/-! ### Batches -/

/-- A batch of rows that transaction `transactionID` appends, and how the transaction ends: with
a commit timestamp, or by a rollback. -/
structure AppendBatch (m : ℕ) (V : Type) where
  transactionID : ℕ
  rows : List (Fin m → V)
  commitTS : Option ℕ
  start_le : startTransactionID ≤ transactionID
  transactionID_lt : transactionID < invalidTransaction
  commitTS_ok : ∀ ts ∈ commitTS, ts ≠ 0 ∧ ts < startTransactionID

lemma one_isCommitTS : ∀ ts ∈ some 1, ts ≠ 0 ∧ ts < startTransactionID := by decide

/-- A group that a checkpoint left on disk, with at least one row. -/
structure PersistentGroup (m : ℕ) (V : Type) where
  startRowIdx : ℕ
  capacity : ℕ
  rows : List (Fin m → V)
  rows_ne : rows ≠ []

namespace NodeGroup

variable {cap m : ℕ} {V : Type}

/-- A new node group, or one that a checkpoint has left. -/
def init : Option (PersistentGroup m V) → NodeGroup cap m V
  | none => empty
  | some p => ofPersistent p.startRowIdx p.capacity p.rows.length fun c => p.rows.map (· c)

/-- Appends a batch and ends its transaction through the undo record of the batch
(`VersionRecordHandler::applyFuncToChunkedGroups` and `rollbackInsert`). -/
def runBatch (chunkCap : ℕ) (ng : NodeGroup cap m V) (b : AppendBatch m V) :
    Option (NodeGroup cap m V) := do
  let startRow := ng.numRows
  let ng ← ng.append chunkCap b.transactionID (fun c => b.rows.map (· c)) 0 b.rows.length
  match b.commitTS with
  | some ts =>
    ng.applyFuncToChunkedGroups chunkCap (ChunkedNodeGroup.commitInsert ts) startRow b.rows.length
  | none => do
    let ng ← ng.applyFuncToChunkedGroups chunkCap ChunkedNodeGroup.rollbackInsert startRow
      b.rows.length
    return ng.rollbackInsert startRow

/-- The batches one after the other: a single writer at a time. -/
def runBatches (chunkCap : ℕ) (ng : NodeGroup cap m V) (bs : List (AppendBatch m V)) :
    Option (NodeGroup cap m V) :=
  bs.foldlM (runBatch chunkCap) ng

end NodeGroup

end Ladybug
