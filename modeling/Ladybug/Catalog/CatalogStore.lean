import Ladybug.Catalog.CatalogSet
import Ladybug.Lib.Fold

/-!
# Transactions over the entries of a catalog set

`CatalogStore` is the code: a `CatalogSet`, and for each running transaction the undo buffer with
one record for each version that it has put on a chain. `CatalogHistory` says what has been done:
which versions the entry of a name has, each with the transaction that wrote it.

`TransactionManager::commit` takes a timestamp, replays the undo buffer and writes the log. When one
of these steps throws, the caller rolls the transaction back, whose undo buffer has been replayed up
to some record by then: that is the action `failedCommit`. To the history it is a rollback.

With several write transactions nothing keeps a transaction from putting a version on one that it
does not see. `CatalogStore.allowed` is the condition under which none does.
-/

namespace Ladybug

open Mvcc

/-- What a transaction does to a catalog set. -/
inductive CatalogAction (K E : Type) where
  | begin
  | createEntry (id : ℕ) (name : K) (content : E)
  | dropEntry (id : ℕ) (name : K) (oid : ℕ)
  | alterTableEntry (id : ℕ) (name : K) (alter : E → E)
  | renameTableEntry (id : ℕ) (name newName : K) (alter : E → E)
  | commit (id : ℕ)
  | rollback (id : ℕ)
  /-- a commit that throws after some records have been replayed -/
  | failedCommit (id numCommitted : ℕ)

variable {K E : Type} [DecidableEq K] [ToString K]

/-! ### The code -/

/-- A catalog set and the undo buffers of the transactions on it. -/
structure CatalogStore (K E : Type) where
  mgr : TransactionManager
  catalogSet : CatalogSet K E
  /-- the undo buffer of the transaction with a given id, oldest record first -/
  undoBuffer : ℕ → List (CatalogEntryRecord K)

namespace CatalogStore

/-- A database that has just been opened, with the entries that its checkpoint has. -/
def init (catalog : K → Option (ℕ × E)) : CatalogStore K E where
  mgr := .init
  catalogSet :=
    { entries := fun name => ((catalog name).map fun (oid, content) =>
        ⟨0, oid, 0, some content⟩).toList
      nextPtr := 1 }
  undoBuffer := fun _ => []

/-- Writes the catalog set and pushes the records about it. -/
def put (s : CatalogStore K E) (id : ℕ) (cs : CatalogSet K E) (rs : List (CatalogEntryRecord K)) :
    CatalogStore K E :=
  { s with
    catalogSet := cs
    undoBuffer := Function.update s.undoBuffer id (s.undoBuffer id ++ rs) }

/-- A drop or an alteration; an exception leaves the state as it is. -/
def change (s : CatalogStore K E) (id : ℕ) (name : K) :
    Except String (CatalogSet K E × ℕ) → CatalogStore K E
  | .ok (cs, prev) => s.put id cs [⟨name, prev⟩]
  | .error _ => s

/-- The end of a transaction, once its undo buffer has been replayed. -/
def finish (s : CatalogStore K E) (id : ℕ) (mgr : TransactionManager) (cs : CatalogSet K E) :
    CatalogStore K E where
  mgr := mgr
  catalogSet := cs
  undoBuffer := Function.update s.undoBuffer id []

/-- One action of the code; `none` when an assertion fails or a null pointer is read. -/
def step (s : CatalogStore K E) : CatalogAction K E → Option (CatalogStore K E)
  | .begin => s.mgr.beginTransaction.map fun mgr => { s with mgr := mgr }
  | .createEntry id name content => do
    let T ← s.mgr.find? id
    match ← s.catalogSet.createEntry T name content with
    | (cs, .ok prev) => return s.put id cs [⟨name, prev⟩]
    | (cs, .error _) => return s.put id cs []
  | .dropEntry id name oid => do
    let T ← s.mgr.find? id
    return s.change id name (← s.catalogSet.dropEntryNoLock T name oid)
  | .alterTableEntry id name alter => do
    let T ← s.mgr.find? id
    return s.change id name (← s.catalogSet.alterTableEntry T name alter)
  | .renameTableEntry id name newName alter => do
    let T ← s.mgr.find? id
    match ← s.catalogSet.renameTableEntry T name newName alter with
    | (cs, .ok rs) => return s.put id cs rs
    | (cs, .error _) => return s.put id cs []
  | .commit id => do
    let (commitTS, mgr) ← s.mgr.commit id
    return s.finish id mgr
      (← (s.undoBuffer id).foldlM (CatalogSet.commitRecord commitTS) s.catalogSet)
  | .rollback id => do
    let mgr ← s.mgr.rollback id
    return s.finish id mgr
      (← (s.undoBuffer id).reverse.foldlM CatalogSet.rollbackRecord s.catalogSet)
  | .failedCommit id numCommitted => do
    -- the timestamp has been taken; what is left of the transaction is rolled back
    let (commitTS, mgr) ← s.mgr.commit id
    let cs ← ((s.undoBuffer id).take numCommitted).foldlM (CatalogSet.commitRecord commitTS)
      s.catalogSet
    return s.finish id mgr (← (s.undoBuffer id).reverse.foldlM CatalogSet.rollbackRecord cs)

end CatalogStore

namespace CatalogSet

/-- The newest version of the entry is one that the transaction sees: its own, or one that was
committed before it started. -/
def newestReadable (cs : CatalogSet K E) (T : Transaction) (name : K) : Prop :=
  ∀ entry ∈ (cs.entries name).head?, entry.readableBy T = true

/-- The transaction may create an entry of the name. -/
def free (cs : CatalogSet K E) (T : Transaction) (name : K) : Prop :=
  ∀ entry ∈ (cs.entries name).head?, entry.readableBy T = true ∧ entry.isDeleted = true

instance (cs : CatalogSet K E) (T : Transaction) (name : K) :
    Decidable (cs.newestReadable T name) :=
  inferInstanceAs (Decidable (∀ entry ∈ (cs.entries name).head?, entry.readableBy T = true))

instance (cs : CatalogSet K E) (T : Transaction) (name : K) : Decidable (cs.free T name) :=
  inferInstanceAs (Decidable (∀ entry ∈ (cs.entries name).head?, _ ∧ _))

end CatalogSet

/-- When a transaction drops, alters or renames an entry that it sees, the newest version of the
entry is one that it sees, which nothing checks; a name that a rename gives has to be free. -/
def CatalogStore.allowed (s : CatalogStore K E) : CatalogAction K E → Prop
  | .dropEntry id name _ | .alterTableEntry id name _ =>
    ∀ T ∈ s.mgr.find? id,
      s.catalogSet.containsEntry T name = some false ∨ s.catalogSet.newestReadable T name
  | .renameTableEntry id name newName _ =>
    ∀ T ∈ s.mgr.find? id,
      s.catalogSet.containsEntry T name = some false ∨
        s.catalogSet.newestReadable T name ∧ (newName = name ∨ s.catalogSet.free T newName)
  | _ => True

instance (s : CatalogStore K E) : ∀ a : CatalogAction K E, Decidable (s.allowed a)
  | .dropEntry id .. | .alterTableEntry id .. | .renameTableEntry id .. =>
    inferInstanceAs (Decidable (∀ T ∈ s.mgr.find? id, _ ∨ _))
  | .begin | .createEntry .. | .commit _ | .rollback _ | .failedCommit .. => .isTrue trivial

/-! ### What has been done -/

/-- A version of a catalog entry; a deleted one has no content. -/
structure EntryVersion (E : Type) where
  oid : ℕ
  stamp : Stamp
  /-- when the transaction that wrote it started -/
  startTS : ℕ
  content : Option E

/-- The transaction that wrote the version `v` saw the version `w`, which is its own or was
committed before it started. -/
def EntryVersion.Saw (v w : EntryVersion E) : Prop :=
  w.stamp = v.stamp ∨ ∃ ts ≤ v.startTS, w.stamp = .committed ts

/-- The versions of the entries of a catalog set, the newest first.  Those of transactions that
were rolled back are not among them. -/
structure CatalogHistory (K E : Type) where
  mgr : TransactionManager
  versions : K → List (EntryVersion E)
  nextOID : ℕ

namespace CatalogHistory

/-- A database that has just been opened. -/
def init (catalog : K → Option (ℕ × E)) : CatalogHistory K E where
  mgr := .init
  versions := fun name => ((catalog name).map fun (oid, content) =>
    ⟨oid, .committed 0, 0, some content⟩).toList
  nextOID := 0

/-- Puts a version on top of the others. -/
def push (h : CatalogHistory K E) (name : K) (v : EntryVersion E) : CatalogHistory K E :=
  { h with versions := Function.update h.versions name (v :: h.versions name) }

/-- The entry that `T` sees: of the versions that it sees the newest, when that has content. -/
def lookup (h : CatalogHistory K E) (T : Transaction) (name : K) : Option (ℕ × E) :=
  ((h.versions name).find? fun v => v.stamp.visibleTo T.id T.startTS).bind fun v =>
    v.content.map (v.oid, ·)

/-- Whether `T` may create an entry of the name: nobody has a newer version than `T` sees, and
`T` sees no entry. -/
def isFree (h : CatalogHistory K E) (T : Transaction) (name : K) : Bool :=
  (h.versions name).head?.all fun v => v.stamp.visibleTo T.id T.startTS && v.content.isNone

/-- A new entry; the first version of a name stands on a deleted one. -/
def add (h : CatalogHistory K E) (T : Transaction) (name : K) (oid : ℕ) (content : E) :
    CatalogHistory K E :=
  let h := if (h.versions name).isEmpty then h.push name ⟨oid, .committed 0, 0, none⟩ else h
  h.push name ⟨oid, .active T.id, T.startTS, some content⟩

/-- A creation; nothing is created when the name is not free. -/
def create (h : CatalogHistory K E) (T : Transaction) (name : K) (content : E) :
    CatalogHistory K E :=
  let h' := { h with nextOID := h.nextOID + 1 }
  if h.isFree T name then h'.add T name h.nextOID content else h'

/-- A drop; nothing is dropped when there is no entry. -/
def drop (h : CatalogHistory K E) (T : Transaction) (name : K) (oid : ℕ) : CatalogHistory K E :=
  match h.lookup T name with
  | some _ => h.push name ⟨oid, .active T.id, T.startTS, none⟩
  | none => h

/-- An alteration; nothing is altered when there is no entry. -/
def alter (h : CatalogHistory K E) (T : Transaction) (name : K) (alter : E → E) :
    CatalogHistory K E :=
  match h.lookup T name with
  | some (oid, content) => h.push name ⟨oid, .active T.id, T.startTS, some (alter content)⟩
  | none => h

/-- A rename: a deleted version of the old name and an entry of the new one. -/
def rename (h : CatalogHistory K E) (T : Transaction) (name newName : K) (alter : E → E) :
    CatalogHistory K E :=
  match h.lookup T name with
  | some (oid, content) =>
    (h.push name ⟨oid, .active T.id, T.startTS, none⟩).add T newName oid (alter content)
  | none => h

/-- The versions of the transaction are committed. -/
def commit (h : CatalogHistory K E) (id ts : ℕ) : CatalogHistory K E :=
  { h with versions := fun name => (h.versions name).map fun v =>
      { v with stamp := v.stamp.commit id ts } }

/-- The versions of the transaction are gone. -/
def rollback (h : CatalogHistory K E) (id : ℕ) : CatalogHistory K E :=
  { h with versions := fun name => (h.versions name).filter fun v => v.stamp != .active id }

/-- One action; `none` when the transaction does not run. -/
def step (h : CatalogHistory K E) : CatalogAction K E → Option (CatalogHistory K E)
  | .begin => h.mgr.beginTransaction.map fun mgr => { h with mgr := mgr }
  | .createEntry id name content => (h.mgr.find? id).map (h.create · name content)
  | .dropEntry id name oid => (h.mgr.find? id).map (h.drop · name oid)
  | .alterTableEntry id name alter => (h.mgr.find? id).map (h.alter · name alter)
  | .renameTableEntry id name newName alter => (h.mgr.find? id).map (h.rename · name newName alter)
  | .commit id => (h.mgr.commit id).map fun (ts, mgr) => { h.commit id ts with mgr := mgr }
  | .rollback id => (h.mgr.rollback id).map fun mgr => { h.rollback id with mgr := mgr }
  | .failedCommit id _ => (h.mgr.commit id).map fun (_, mgr) => { h.rollback id with mgr := mgr }

end CatalogHistory

end Ladybug
