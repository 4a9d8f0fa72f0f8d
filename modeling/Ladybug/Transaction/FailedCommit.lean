import Ladybug.Storage.UpdateHistory
import Ladybug.Storage.VersionHistory

/-!
# Commits that fail

`TransactionManager::commit` takes a timestamp, replays the undo buffer and writes the log. When one
of these steps throws, the caller rolls the transaction back, whose undo buffer has been replayed up
to some record by then. To what the transactions read that should be a rollback.

Rows and updates are rolled back in different ways. The records of rows name the rows, whatever
their versions are. The records of updates name the version that is to be removed, and a version
that has been committed has another one: `WriteLog.fallibleStep` has no failed commit after such a
record.
-/

namespace Ladybug

variable {cap : ℕ} {V : Type}

/-- An action of a transaction, or a commit that throws after some records have been replayed. -/
inductive FallibleAction (A : Type) where
  | act (a : A)
  | failedCommit (id numCommitted : ℕ)

/-! ### The code -/

namespace VersionStore

/-- A commit that throws, and the rollback that the caller makes then. -/
def failedCommit (s : VersionStore cap) (id numCommitted : ℕ) : Option (VersionStore cap) := do
  let (commitTS, mgr) ← s.mgr.commit id
  let info ← ((s.undoBuffer id).take numCommitted).foldlM (VersionRecord.commit commitTS) s.info
  let info ← (s.undoBuffer id).reverse.foldlM VersionRecord.rollback info
  return { mgr := mgr, info := info, undoBuffer := Function.update s.undoBuffer id [] }

def fallibleStep (s : VersionStore cap) : FallibleAction VersionAction → Option (VersionStore cap)
  | .act a => s.step a
  | .failedCommit id numCommitted => s.failedCommit id numCommitted

end VersionStore

namespace UpdateStore

/-- A commit that throws, and the rollback that the caller makes then. -/
def failedCommit (s : UpdateStore V) (id numCommitted : ℕ) : Option (UpdateStore V) := do
  let (commitTS, mgr) ← s.mgr.commit id
  let info ← ((s.undoBuffer id).take numCommitted).foldlM
    (fun info r => UpdateInfo.commit info r.vectorIdx r.vectorUpdateInfo commitTS) s.info
  let info ← (s.undoBuffer id).reverse.foldlM
    (fun info r => UpdateInfo.rollback info r.vectorIdx r.version) info
  return { mgr := mgr, info := info, undoBuffer := Function.update s.undoBuffer id [] }

def fallibleStep (cap : ℕ) (s : UpdateStore V) :
    FallibleAction (UpdateAction V) → Option (UpdateStore V)
  | .act a => s.step cap a
  | .failedCommit id numCommitted => s.failedCommit id numCommitted

end UpdateStore

/-! ### What the rows and the writes are -/

/-- One action on the rows, to which a failed commit is a rollback. -/
def RowHistory.fallibleStep (numCheckpointed : ℕ) (h : RowHistory) :
    FallibleAction VersionAction → Option RowHistory
  | .act a => h.step numCheckpointed a
  | .failedCommit id _ => (h.mgr.commit id).map fun (_, mgr) => h.rolledBack id mgr

/-- One action on the writes, to which a failed commit is a rollback; `none` when it fails after it
has replayed a record. -/
def WriteLog.fallibleStep (h : WriteLog V) : FallibleAction (UpdateAction V) → Option (WriteLog V)
  | .act a => h.step a
  | .failedCommit id numCommitted =>
    if numCommitted = 0 then (h.mgr.commit id).map fun (_, mgr) => h.rolledBack id mgr else none

end Ladybug
