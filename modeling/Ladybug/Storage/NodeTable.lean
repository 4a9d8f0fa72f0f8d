import Ladybug.Index.PrimaryKeyIndex
import Ladybug.Storage.NodeGroup

/-!
# The rollback of a batch of inserted nodes

A batch of nodes leaves undo records, each of which names a range of rows of one node group. For
every record `NodeTableVersionRecordHandler::rollbackInsert` first takes the keys of its rows out
of the primary key index: it scans the primary key column of the table under a semi mask of these
rows (`RollbackPKDeleter`, `scanIndexColumns`) and discards every key it reads. Then it rolls back
the rows themselves.

A mask only decides which vectors of rows are read: `ChunkedNodeGroup::scan` overwrites the
selection that `applySemiMaskFilter` has made.
-/

namespace Ladybug

/-! ### The semi mask -/

/-- `SemiMask`, after one call of `maskRange`. -/
structure SemiMask where
  startNodeOffset : ℕ
  endNodeOffset : ℕ

/-- `SemiMask::range`: the arguments are `uint32_t`. -/
def SemiMask.range (mask : SemiMask) (start stop : ℕ) : List ℕ :=
  (List.range' mask.startNodeOffset (mask.endNodeOffset - mask.startNodeOffset)).filter
    fun offset => start % 2 ^ 32 ≤ offset ∧ offset < stop % 2 ^ 32

/-- The loop of `applySemiMaskFilter`, in at most `fuel` rounds.  It writes to the buffer that it
may also be reading from. -/
def semiMaskLoop (startNodeOffset numRowsToScan : ℕ) :
    ℕ → List ℕ → ℕ → ℕ → SelectionVector → Option (SelectionVector × ℕ)
  | _, [], _, numSelectedValues, selVector => some (selVector, numSelectedValues)
  | fuel, offset :: arr, i, numSelectedValues, selVector =>
    if numRowsToScan ≤ i then
      some (selVector, numSelectedValues)
    else
      match fuel with
      | 0 => none
      | fuel + 1 =>
        -- a difference of `uint64_t`
        let temp := (offset + 2 ^ 64 - startNodeOffset) % 2 ^ 64
        if selVector.positionAt i < temp then
          semiMaskLoop startNodeOffset numRowsToScan fuel (offset :: arr) (i + 1)
            numSelectedValues selVector
        else if temp < selVector.positionAt i then
          semiMaskLoop startNodeOffset numRowsToScan fuel arr i numSelectedValues selVector
        else
          semiMaskLoop startNodeOffset numRowsToScan fuel arr (i + 1) (numSelectedValues + 1)
            { selVector with buffer := Function.update selVector.buffer numSelectedValues temp }

def applySemiMaskFilter (mask : SemiMask) (startNodeOffset numRowsToScan : ℕ)
    (selVector : SelectionVector) : Option SelectionVector :=
  let arr := mask.range startNodeOffset (startNodeOffset + numRowsToScan)
  if arr = [] then
    some (selVector.setSelSize 0)
  else do
    let (selVector, numSelectedValues) ← semiMaskLoop startNodeOffset numRowsToScan
      (numRowsToScan + arr.length) arr 0 0 selVector
    return (selVector.setSelSize numSelectedValues).setToFiltered

namespace NodeGroup

variable {cap m : ℕ} {V : Type}

/-- `scan` under a semi mask: one vector of rows, or nothing at the end of the node group. -/
def scanSemiMask (ng : NodeGroup cap m V) (T : Transaction) (mask : SemiMask)
    (nodeGroupStartOffset : ℕ) (state : NodeGroupScanState) :
    Option (NodeGroupScanState × Option (List (OutputRow m V))) := do
  let g ← ng.chunkedGroups[state.chunkedGroupIdx]?
  let idx :=
    if g.numRows + g.startRowIdx ≤ state.nextRowToScan then state.chunkedGroupIdx + 1
    else state.chunkedGroupIdx
  if ng.chunkedGroups.length ≤ idx then
    return ({ state with chunkedGroupIdx := idx }, none)
  else
    let g ← ng.chunkedGroups[idx]?
    guard (g.startRowIdx ≤ state.nextRowToScan)
    let rowIdxInChunkToScan := state.nextRowToScan - g.startRowIdx
    let numRowsToScan := min (g.numRows - rowIdxInChunkToScan) cap
    let selVector ← applySemiMaskFilter mask (state.nextRowToScan + nodeGroupStartOffset)
      numRowsToScan state.selVector
    if selVector.selectedSize = 0 then
      return (⟨idx, state.nextRowToScan + numRowsToScan, selVector⟩, some [])
    else
      let (selVector, rows) ← g.scan T selVector rowIdxInChunkToScan numRowsToScan
      return (⟨idx, state.nextRowToScan + numRowsToScan, selVector⟩, some rows)

/-- A bound for the number of scans of the node group: each ends a group or reads a row. -/
def scanFuel (ng : NodeGroup cap m V) : ℕ :=
  (ng.chunkedGroups.map (·.numRows)).sum + ng.chunkedGroups.length + 1

end NodeGroup

/-! ### The node table -/

/-- `VersionRecord` of an insertion (`INSERT_INFO`) into a node table. -/
structure InsertInfo where
  startRow : ℕ
  numRows : ℕ
  nodeGroupIdx : ℕ

/-- `NodeTable`, with its primary key index. -/
structure NodeTable (cap m : ℕ) (K : Type) where
  nodeGroups : List (NodeGroup cap m K)
  pkIndex : PrimaryKeyIndex K

namespace NodeTable

variable {cap m : ℕ} {K : Type} [Inhabited K] [BEq K] (slotCap : ℕ) (hash : K → ℕ) (pk : Fin m)

/-- One key of `RollbackPKDeleter::processScanOutput`. -/
def discardKey (idx : PrimaryKeyIndex K) (key : K) : Option (PrimaryKeyIndex K) := do
  match ← idx.lookup slotCap hash key fun _ => true with
  | some _ => return (← idx.discardLocal slotCap hash key).1
  | none => return idx

def processScanOutput (idx : PrimaryKeyIndex K) (rows : List (OutputRow m K)) :
    Option (PrimaryKeyIndex K) :=
  rows.foldlM (fun idx row => do discardKey slotCap hash idx (← row.2 pk)) idx

/-- The inner loop of `scanIndexColumns`, in at most `fuel` scans. -/
def scanNodeGroup (T : Transaction) (mask : SemiMask) (ng : NodeGroup cap m K)
    (nodeGroupStartOffset : ℕ) :
    ℕ → NodeGroupScanState → PrimaryKeyIndex K → Option (SelectionVector × PrimaryKeyIndex K)
  | 0, _, _ => none
  | fuel + 1, state, idx => do
    match ← ng.scanSemiMask T mask nodeGroupStartOffset state with
    | (state, none) => return (state.selVector, idx)
    | (state, some rows) =>
      scanNodeGroup T mask ng nodeGroupStartOffset fuel state
        (← processScanOutput slotCap hash pk idx rows)

/-- `scanIndexColumns` with a `RollbackPKDeleter`, from node group `nodeGroupIdx` on. -/
def scanIndexColumns (nodeGroupSize : ℕ) (T : Transaction) (mask : SemiMask) :
    List (NodeGroup cap m K) → ℕ → SelectionVector → PrimaryKeyIndex K →
      Option (SelectionVector × PrimaryKeyIndex K)
  | [], _, selVector, idx => some (selVector, idx)
  | ng :: groups, nodeGroupIdx, selVector, idx =>
    match ng.chunkedGroups with
    | [] => scanIndexColumns nodeGroupSize T mask groups (nodeGroupIdx + 1) selVector idx
    | first :: _ => do
      let (selVector, idx) ← scanNodeGroup slotCap hash pk T mask ng
        (nodeGroupIdx * nodeGroupSize) ng.scanFuel ⟨0, first.startRowIdx, selVector⟩ idx
      scanIndexColumns nodeGroupSize T mask groups (nodeGroupIdx + 1) selVector idx

/-- The selection vector of a new data chunk. -/
def newSelVector (cap : ℕ) : SelectionVector := ⟨.static, cap, fun _ => 0⟩

def rollbackPKIndexInsert (nodeGroupSize : ℕ) (table : NodeTable cap m K) (T : Transaction)
    (startRow numRows nodeGroupIdx : ℕ) : Option (NodeTable cap m K) := do
  let startNodeOffset := startRow + nodeGroupIdx * nodeGroupSize
  let (_, pkIndex) ← scanIndexColumns slotCap hash pk nodeGroupSize T
    ⟨startNodeOffset, startNodeOffset + numRows⟩ table.nodeGroups 0 (newSelVector cap)
    table.pkIndex
  return { table with pkIndex }

/-- The rows of `NodeTableVersionRecordHandler::rollbackInsert`. A node group that has been removed
before is asserted to start at row 0. -/
def rollbackRows (chunkCap : ℕ) (nodeGroups : List (NodeGroup cap m K)) (record : InsertInfo) :
    Option (List (NodeGroup cap m K)) :=
  match nodeGroups[record.nodeGroupIdx]? with
  | none => some nodeGroups
  | some ng => do
    let ng ← ng.applyFuncToChunkedGroups chunkCap ChunkedNodeGroup.rollbackInsert record.startRow
      record.numRows
    -- `rollbackGroupCollectionInsert` removes the empty node groups at the end
    return (nodeGroups.set record.nodeGroupIdx (ng.rollbackInsert record.startRow)).rdropWhile
      (·.numRows = 0)

def rollbackInsert (nodeGroupSize chunkCap : ℕ) (T : Transaction) (table : NodeTable cap m K)
    (record : InsertInfo) : Option (NodeTable cap m K) := do
  let table ← table.rollbackPKIndexInsert slotCap hash pk nodeGroupSize T record.startRow
    record.numRows record.nodeGroupIdx
  return { table with nodeGroups := ← rollbackRows chunkCap table.nodeGroups record }

/-- `UndoBuffer::rollback` on the insertion records of a transaction: the last one comes first. -/
def rollback (nodeGroupSize chunkCap : ℕ) (T : Transaction) (table : NodeTable cap m K)
    (records : List InsertInfo) : Option (NodeTable cap m K) :=
  records.reverse.foldlM (rollbackInsert slotCap hash pk nodeGroupSize chunkCap T) table

end NodeTable

end Ladybug
