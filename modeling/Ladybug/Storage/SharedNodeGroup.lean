import Ladybug.Storage.NodeGroup

/-!
# A node group with several writers

With `enableMultiWrites` any number of write transactions are active at a time. Each of them
appends rows to the node group and keeps an insert record per append in its undo buffer. A commit
goes through the records of the transaction from the first to the last, a rollback from the last
to the first.
-/

namespace Ladybug

/-- `VersionRecord` of an insertion, with the transaction whose undo buffer holds it. -/
structure InsertRecord where
  transactionID : ℕ
  startRow : ℕ
  numRows : ℕ
  deriving Repr, DecidableEq

/-- A node group and the insert records of the active transactions, the oldest first. -/
structure SharedNodeGroup (cap m : ℕ) (V : Type) where
  nodeGroup : NodeGroup cap m V
  records : List InsertRecord

/-- What a transaction does to the node group. -/
inductive WriterAction (m : ℕ) (V : Type) where
  | append (transactionID : ℕ) (rows : List (Fin m → V))
  | commit (transactionID commitTS : ℕ)
  | rollback (transactionID : ℕ)

namespace SharedNodeGroup

variable {cap m : ℕ} {V : Type}

/-- A new node group, or one that a checkpoint has left, without active transactions. -/
def init (p : Option (PersistentGroup m V)) : SharedNodeGroup cap m V := ⟨NodeGroup.init p, []⟩

/-- The undo buffer of a transaction. -/
def undoBuffer (s : SharedNodeGroup cap m V) (transactionID : ℕ) : List InsertRecord :=
  s.records.filter (·.transactionID = transactionID)

/-- The records that are left once a transaction has ended. -/
def removeTransaction (s : SharedNodeGroup cap m V) (transactionID : ℕ) : List InsertRecord :=
  s.records.filter (·.transactionID ≠ transactionID)

/-- `commitVersionInfo`. -/
def commitRecord (chunkCap commitTS : ℕ) (ng : NodeGroup cap m V) (r : InsertRecord) :
    Option (NodeGroup cap m V) :=
  ng.applyFuncToChunkedGroups chunkCap (ChunkedNodeGroup.commitInsert commitTS) r.startRow
    r.numRows

/-- `rollbackVersionInfo`, which calls `NodeTableVersionRecordHandler::rollbackInsert`. -/
def rollbackRecord (chunkCap : ℕ) (ng : NodeGroup cap m V) (r : InsertRecord) :
    Option (NodeGroup cap m V) := do
  let ng ← ng.applyFuncToChunkedGroups chunkCap ChunkedNodeGroup.rollbackInsert r.startRow
    r.numRows
  return ng.rollbackInsert r.startRow

/-- One action.  An append pushes its record before it writes (`pushInsertInfo`). -/
def step (chunkCap : ℕ) (s : SharedNodeGroup cap m V) :
    WriterAction m V → Option (SharedNodeGroup cap m V)
  | .append transactionID rows => do
    let record := ⟨transactionID, s.nodeGroup.numRows, rows.length⟩
    let ng ← s.nodeGroup.append chunkCap transactionID (fun c => rows.map (· c)) 0 rows.length
    return ⟨ng, s.records ++ [record]⟩
  | .commit transactionID commitTS => do
    let ng ← (s.undoBuffer transactionID).foldlM (commitRecord chunkCap commitTS) s.nodeGroup
    return ⟨ng, s.removeTransaction transactionID⟩
  | .rollback transactionID => do
    let ng ← (s.undoBuffer transactionID).reverse.foldlM (rollbackRecord chunkCap) s.nodeGroup
    return ⟨ng, s.removeTransaction transactionID⟩

/-- The actions of all transactions, in the order in which they take the lock. -/
def run (chunkCap : ℕ) (s : SharedNodeGroup cap m V) (as : List (WriterAction m V)) :
    Option (SharedNodeGroup cap m V) :=
  as.foldlM (step chunkCap) s

end SharedNodeGroup

end Ladybug
