import Ladybug.Storage.UpdateInfo

/-!
# Transactions over the updates of one column chunk

`UpdateStore` is the code: an `UpdateInfo`, and for each running transaction the undo buffer with
one record for each update. `WriteLog` says what has been written: all updates that succeeded and
were not rolled back, in the order in which they were made, each with the transaction that made it.
-/

namespace Ladybug

/-- What a transaction does to the rows of a column chunk. -/
inductive UpdateAction (V : Type) where
  | begin
  | update (id row : ℕ) (value : V)
  | commit (id : ℕ)
  | rollback (id : ℕ)

variable {V : Type}

namespace TransactionManager

/-- The running transaction with a given id. -/
def find? (m : TransactionManager) (id : ℕ) : Option Transaction :=
  m.activeTransactions.find? fun t => t.id == id

lemma find?_some {m : TransactionManager} {id : ℕ} {T : Transaction} (hf : m.find? id = some T) :
    T ∈ m.activeTransactions ∧ T.id = id :=
  ⟨List.mem_of_find?_eq_some hf, by simpa using List.find?_some hf⟩

end TransactionManager

/-! ### The code -/

structure VectorUpdateRecord where
  vectorIdx : ℕ
  vectorUpdateInfo : ℕ
  version : ℕ
  deriving Repr, DecidableEq

/-- The updates of a column chunk and the undo buffers of the transactions on it. -/
structure UpdateStore (V : Type) where
  mgr : TransactionManager
  info : UpdateInfo V
  /-- the undo buffer of the transaction with a given id, oldest record first -/
  undoBuffer : ℕ → List VectorUpdateRecord

namespace UpdateStore

/-- A column chunk without updates. -/
def init : UpdateStore V where
  mgr := .init
  info := {}
  undoBuffer := fun _ => []

/-- `ColumnChunk::update`: the update of a row and its undo record, or the message of the
exception. -/
def update (s : UpdateStore V) (cap : ℕ) (T : Transaction) (row : ℕ) (value : V) :
    UpdateStore V × Except String Unit :=
  match s.info.update T (row / cap) (row % cap) value with
  | (info, .ok ptr) =>
    ({ s with
        info := info
        undoBuffer := Function.update s.undoBuffer T.id
          (s.undoBuffer T.id ++ [⟨row / cap, ptr, T.id⟩]) }, .ok ())
  | (info, .error e) => ({ s with info := info }, .error e)

/-- One action of the code; `none` when an assertion fails. -/
def step (cap : ℕ) (s : UpdateStore V) : UpdateAction V → Option (UpdateStore V)
  | .begin => s.mgr.beginTransaction.map fun mgr => { s with mgr := mgr }
  | .update id row value => (s.mgr.find? id).map fun T => (s.update cap T row value).1
  | .commit id => do
    let (commitTS, mgr) ← s.mgr.commit id
    let info ← (s.undoBuffer id).foldlM
      (fun info r => UpdateInfo.commit info r.vectorIdx r.vectorUpdateInfo commitTS) s.info
    return { mgr := mgr, info := info, undoBuffer := Function.update s.undoBuffer id [] }
  | .rollback id => do
    let mgr ← s.mgr.rollback id
    let info ← (s.undoBuffer id).reverse.foldlM
      (fun info r => UpdateInfo.rollback info r.vectorIdx r.version) s.info
    return { mgr := mgr, info := info, undoBuffer := Function.update s.undoBuffer id [] }

end UpdateStore

/-! ### What has been written -/

structure Write (V : Type) where
  /-- the transaction that made it, and when that transaction started -/
  id : ℕ
  startTS : ℕ
  row : ℕ
  value : V
  /-- the commit timestamp of the transaction, once it has committed -/
  commitTS : Option ℕ

namespace Write

/-- The write is to the row, by the transaction, and not committed. -/
def isOwn (id row : ℕ) (w : Write V) : Bool :=
  w.row == row && w.id == id && w.commitTS.isNone

/-- The write is to the row and was committed no later than `ts`. -/
def isCommittedBy (ts row : ℕ) (w : Write V) : Bool :=
  w.row == row && w.commitTS.any (· ≤ ts)

/-- The write is a version of the row that another running transaction holds, or one that was
committed after `T` started. -/
def conflictsWith (T : Transaction) (row : ℕ) (w : Write V) : Bool :=
  w.row == row && w.id != T.id && w.commitTS.all (T.startTS < ·)

/-- The later of two writes by commit timestamp; of two writes with one timestamp the second. -/
def later (best : Option (Write V)) (w : Write V) : Option (Write V) :=
  match best with
  | none => some w
  | some b => if b.commitTS.getD 0 ≤ w.commitTS.getD 0 then some w else some b

end Write

/-- The writes of one column chunk, oldest first. -/
structure WriteLog (V : Type) where
  mgr : TransactionManager
  writes : List (Write V)

namespace WriteLog

/-- A column chunk without updates. -/
def init : WriteLog V where
  mgr := .init
  writes := []

/-- The write to the row with the greatest commit timestamp that is at most `ts`. -/
def latestCommitted (h : WriteLog V) (ts row : ℕ) : Option (Write V) :=
  (h.writes.filter (Write.isCommittedBy ts row)).foldl Write.later none

/-- The write to the row with the greatest commit timestamp. -/
def newestCommitted (h : WriteLog V) (row : ℕ) : Option (Write V) :=
  (h.writes.filter fun w => w.row == row && w.commitTS.isSome).foldl Write.later none

/-- What `T` reads of the row: its own last write, or else the write with the greatest commit
timestamp that is at most its start timestamp. -/
def read (h : WriteLog V) (T : Transaction) (row : ℕ) : Option V :=
  match (h.writes.filter (Write.isOwn T.id row)).getLast? with
  | some w => some w.value
  | none => (h.latestCommitted T.startTS row).map Write.value

/-- Some version of the row conflicts with an update by `T`. -/
def conflict (h : WriteLog V) (T : Transaction) (row : ℕ) : Bool :=
  h.writes.any (Write.conflictsWith T row)

/-- The writes without those of the transaction. -/
def rolledBack (h : WriteLog V) (id : ℕ) (mgr : TransactionManager) : WriteLog V where
  mgr := mgr
  writes := h.writes.filter fun w => w.id != id

/-- One action on the writes; `none` when the transaction is not running. -/
def step (h : WriteLog V) : UpdateAction V → Option (WriteLog V)
  | .begin => h.mgr.beginTransaction.map fun mgr => { h with mgr := mgr }
  | .update id row value => (h.mgr.find? id).map fun T =>
      if h.conflict T row then h
      else { h with writes := h.writes ++ [⟨T.id, T.startTS, row, value, none⟩] }
  | .commit id => (h.mgr.commit id).map fun (ts, mgr) =>
      { mgr := mgr
        writes := h.writes.map fun w => if w.id = id then { w with commitTS := some ts } else w }
  | .rollback id => (h.mgr.rollback id).map fun mgr => h.rolledBack id mgr

end WriteLog

/-- One action of the code, together with the list of the updates that it has accepted: an update
that throws is not listed, a commit fills in the timestamp, a rollback takes the transaction's
updates off the list. -/
def UpdateStore.logStep (cap : ℕ) :
    UpdateStore V × List (Write V) → UpdateAction V → Option (UpdateStore V × List (Write V))
  | (s, ws), a => (s.step cap a).map fun s' => (s',
    match a with
    | .begin => ws
    | .update id row value =>
      match s.mgr.find? id with
      | none => ws
      | some T =>
        match (s.update cap T row value).2 with
        | .ok () => ws ++ [⟨T.id, T.startTS, row, value, none⟩]
        | .error _ => ws
    | .commit id =>
      match s.mgr.commit id with
      | none => ws
      | some (ts, _) => ws.map fun w => if w.id = id then { w with commitTS := some ts } else w
    | .rollback id => ws.filter fun w => w.id != id)

end Ladybug
