import Ladybug.Storage.VersionInfo

/-!
# Transactions over the rows of one chunked node group

Two machines run the same actions. `VersionStore` is the code: a `VersionInfo`, and for each
running transaction the undo buffer that its commit replays forwards and its rollback backwards.
`RowHistory` says what the rows are: who inserted and who deleted each of them.
`VersionInfo.expand` spells out the compressed states of the code as arrays.

The actions that a history allows are those its callers promise: a transaction acts between its
begin and its end, appends at the next free row, and deletes rows that it inserted itself or that
are committed. A group that was loaded from a checkpoint is not appended to.
-/

namespace Ladybug

open Mvcc
open Function (update)

/-- What a transaction does to the rows of a group. -/
inductive VersionAction where
  | begin
  | append (id startRow numRows : ℕ)
  | delete (id row : ℕ)
  | commit (id : ℕ)
  | rollback (id : ℕ)
  deriving Repr, DecidableEq

/-! ### The code -/

/-- `VersionRecord` with its `UndoRecordType`. -/
inductive VersionRecord where
  /-- `INSERT_INFO` -/
  | insertInfo (startRow numRows : ℕ)
  /-- `DELETE_INFO` -/
  | deleteInfo (startRow numRows : ℕ)
  deriving Repr, DecidableEq

namespace VersionRecord

variable {cap : ℕ}

/-- `UndoBuffer::commitVersionInfo`. -/
def commit (commitTS : ℕ) (vi : VersionInfo cap) : VersionRecord → Option (VersionInfo cap)
  | insertInfo startRow numRows => vi.commitInsert startRow numRows commitTS
  | deleteInfo startRow numRows => vi.commitDelete startRow numRows commitTS

/-- `UndoBuffer::rollbackVersionInfo`. -/
def rollback (vi : VersionInfo cap) : VersionRecord → Option (VersionInfo cap)
  | insertInfo startRow numRows => vi.rollbackInsert startRow numRows
  | deleteInfo startRow numRows => vi.rollbackDelete startRow numRows

/-- Whether the record is about the insertion of the row. -/
def inserts (row : ℕ) : VersionRecord → Bool
  | insertInfo startRow numRows => startRow ≤ row && row < startRow + numRows
  | deleteInfo _ _ => false

/-- Whether the record is about the deletion of the row. -/
def deletes (row : ℕ) : VersionRecord → Bool
  | insertInfo _ _ => false
  | deleteInfo startRow numRows => startRow ≤ row && row < startRow + numRows

lemma inserts_insertInfo (startRow numRows row : ℕ) :
    inserts row (insertInfo startRow numRows)
      = (decide (startRow ≤ row) && decide (row < startRow + numRows)) := rfl

lemma deletes_deleteInfo (startRow numRows row : ℕ) :
    deletes row (deleteInfo startRow numRows)
      = (decide (startRow ≤ row) && decide (row < startRow + numRows)) := rfl

end VersionRecord

/-- The version information of a group and the undo buffers of the transactions on it. -/
structure VersionStore (cap : ℕ) where
  mgr : TransactionManager
  info : VersionInfo cap
  /-- the undo buffer of the transaction with a given id, oldest record first -/
  undoBuffer : ℕ → List VersionRecord

namespace VersionStore

variable {cap : ℕ}

/-- A group without version information. -/
def init (cap : ℕ) : VersionStore cap where
  mgr := .init
  info := {}
  undoBuffer := fun _ => []

/-- `pushInsertInfo`, `pushDeleteInfo`. -/
def pushRecord (s : VersionStore cap) (id : ℕ) (r : VersionRecord) : VersionStore cap :=
  { s with undoBuffer := update s.undoBuffer id (s.undoBuffer id ++ [r]) }

/-- One action of the code; `none` when an assertion fails or a null pointer is read. -/
def step (s : VersionStore cap) : VersionAction → Option (VersionStore cap)
  | .begin => s.mgr.beginTransaction.map fun mgr => { s with mgr := mgr }
  | .append id startRow numRows =>
    (s.info.append id startRow numRows).map fun info =>
      { s with info := info }.pushRecord id (.insertInfo startRow numRows)
  | .delete id row =>
    match s.info.delete_ id row with
    | (info, .ok true) => some ({ s with info := info }.pushRecord id (.deleteInfo row 1))
    | (info, _) => some { s with info := info }
  | .commit id => do
    let (commitTS, mgr) ← s.mgr.commit id
    let info ← (s.undoBuffer id).foldlM (VersionRecord.commit commitTS) s.info
    return { mgr := mgr, info := info, undoBuffer := update s.undoBuffer id [] }
  | .rollback id => do
    let mgr ← s.mgr.rollback id
    let info ← (s.undoBuffer id).reverse.foldlM VersionRecord.rollback s.info
    return { mgr := mgr, info := info, undoBuffer := update s.undoBuffer id [] }

end VersionStore

/-! ### The expanded arrays -/

/-- The entry of the expanded insertion array of a vector. -/
def VectorVersionInfo.insertionAt {cap : ℕ} (vv : VectorVersionInfo cap) (i : ℕ) : ℕ :=
  match vv.insertionStatus with
  | .noInserted => invalidTransaction
  | .alwaysInserted => 0
  | .checkVersion =>
    if vv.isSameInsertionVersion then vv.sameInsertionVersion
    else versionAt (vv.insertedVersions.getD (initVersionArray cap)) i

/-- The entry of the expanded deletion array of a vector. -/
def VectorVersionInfo.deletionAt {cap : ℕ} (vv : VectorVersionInfo cap) (i : ℕ) : ℕ :=
  versionAt (vv.deletedVersions.getD (initVersionArray cap)) i

/-- A vector with the first `n` rows in use, spelled out as an array per kind.  An absent vector
holds checkpointed rows. -/
def VectorVersionInfo.expand {cap : ℕ} (n : ℕ) (o : Option (VectorVersionInfo cap)) :
    VectorVersionInfo cap :=
  let vv := o.getD { insertionStatus := .alwaysInserted }
  { insertedVersions := some (Vector.ofFn fun i : Fin cap =>
      if i.val < n then vv.insertionAt i else invalidTransaction)
    deletedVersions := some (Vector.ofFn fun i : Fin cap => vv.deletionAt i)
    insertionStatus := .checkVersion
    deletionStatus := .checkVersion }

/-- Version information without any compressed state, for the first `numRows` rows. -/
def VersionInfo.expand {cap : ℕ} (vi : VersionInfo cap) (numRows : ℕ) : VersionInfo cap where
  vectorsInfo := (List.range (numRows / cap + 1)).map fun v =>
    some (VectorVersionInfo.expand (numRows - v * cap) (vi.getVectorVersionInfo v))

/-! ### What the rows are -/

/-- Who inserted and who deleted each row. -/
structure RowHistory where
  mgr : TransactionManager
  inserted : ℕ → Option Stamp
  deleted : ℕ → Option Stamp
  /-- the next free row: the row after the last one that is inserted -/
  numRows : ℕ

namespace RowHistory

/-- A group with `numCheckpointed` rows that were loaded from a checkpoint. -/
def init (numCheckpointed : ℕ) : RowHistory where
  mgr := .init
  inserted := fun row => if row < numCheckpointed then some (.committed 0) else none
  deleted := fun _ => none
  numRows := numCheckpointed

/-- Row `row` is inserted for `T` and not deleted for `T`. -/
def selected (h : RowHistory) (T : Transaction) (row : ℕ) : Bool :=
  visible T.id T.startTS (h.inserted row) && !visible T.id T.startTS (h.deleted row)

/-- The row after the last inserted one below `n`. -/
def firstFreeRow (inserted : ℕ → Option Stamp) : ℕ → ℕ
  | 0 => 0
  | n + 1 => if (inserted n).isSome then n + 1 else firstFreeRow inserted n

/-- Whether transaction `id` may delete the row: it inserted it, or the row is committed. -/
def deletable (h : RowHistory) (id row : ℕ) : Bool :=
  match h.inserted row with
  | some (.active t) => t == id
  | some (.committed _) => true
  | none => false

/-- The history without the transaction. -/
def rolledBack (h : RowHistory) (id : ℕ) (mgr : TransactionManager) : RowHistory where
  mgr := mgr
  inserted := fun row => forget id (h.inserted row)
  deleted := fun row => forget id (h.deleted row)
  numRows := firstFreeRow (fun row => forget id (h.inserted row)) h.numRows

/-- One action on the rows; `none` when the callers do not make it. -/
def step (numCheckpointed : ℕ) (h : RowHistory) : VersionAction → Option RowHistory
  | .begin => h.mgr.beginTransaction.map fun mgr => { h with mgr := mgr }
  | .append id startRow numRows =>
    if h.mgr.isActive id ∧ numCheckpointed = 0 ∧ startRow = h.numRows then
      some { h with
        inserted := fun row =>
          if startRow ≤ row ∧ row < startRow + numRows then some (.active id) else h.inserted row
        numRows := startRow + numRows }
    else none
  | .delete id row =>
    if h.mgr.isActive id ∧ h.deletable id row then
      -- a row that is deleted already stays as it is: own deletion, or a write-write conflict
      some { h with
        deleted :=
          if h.deleted row = none then update h.deleted row (some (.active id))
          else h.deleted }
    else none
  | .commit id => (h.mgr.commit id).map fun (ts, mgr) =>
      { h with
        mgr := mgr
        inserted := fun row => (h.inserted row).map (Stamp.commit id ts)
        deleted := fun row => (h.deleted row).map (Stamp.commit id ts) }
  | .rollback id => (h.mgr.rollback id).map fun mgr => h.rolledBack id mgr

end RowHistory

end Ladybug
