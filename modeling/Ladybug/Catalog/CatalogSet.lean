import Ladybug.Storage.UpdateHistory

/-!
# Versioned entries of a catalog set

A `CatalogSet` keeps, for every name, the chain of the versions of its entry, the newest first.
The `prev` and `next` pointers of the source are the order of the chain, and `ptr` stands for the
address that an undo record keeps. A dummy entry, with which a chain starts and by which an entry
is dropped, has no content.

`K` is the type of names up to case and `E` the type of what an entry holds besides. A function
returns `none` where the source would read a null pointer, and a message where it throws.
-/

namespace Ladybug

structure CatalogEntry (E : Type) where
  ptr : ℕ
  oid : ℕ
  timestamp : ℕ
  content : Option E
  deriving Repr, DecidableEq

namespace CatalogEntry

variable {E : Type}

/-- `isDeleted`: only dummy entries are. -/
def isDeleted (e : CatalogEntry E) : Bool := e.content.isNone

/-- The tests of `traverseVersionChainsForTransactionNoLock`: the entry was created by the
transaction, or committed before it started. -/
def readableBy (T : Transaction) (e : CatalogEntry E) : Bool :=
  e.timestamp == T.id || e.timestamp ≤ T.startTS

end CatalogEntry

/-- `CatalogSet`; a name that has no chain is not in the map.  `nextPtr` is the next address to
hand out. -/
structure CatalogSet (K E : Type) where
  entries : K → List (CatalogEntry E) := fun _ => []
  nextOID : ℕ := 0
  nextPtr : ℕ := 0

/-- `CatalogEntryRecord`: the entry below the one that the transaction has put on its chain. -/
structure CatalogEntryRecord (K : Type) where
  name : K
  catalogEntry : ℕ
  deriving Repr, DecidableEq

namespace CatalogSet

variable {K E : Type} [DecidableEq K]

def checkWWConflict (T : Transaction) (entry : CatalogEntry E) : Bool :=
  (startTransactionID ≤ entry.timestamp && entry.timestamp != T.id) ||
    (entry.timestamp < startTransactionID && T.startTS < entry.timestamp)

/-- `traverseVersionChainsForTransactionNoLock`. -/
def traverseVersionChains (T : Transaction) (chain : List (CatalogEntry E)) :
    Option (CatalogEntry E) :=
  chain.find? (CatalogEntry.readableBy T)

def setChain (cs : CatalogSet K E) (name : K) (chain : List (CatalogEntry E)) : CatalogSet K E :=
  { cs with entries := Function.update cs.entries name chain }

/-- `containsEntryNoLock`. -/
def containsEntry (cs : CatalogSet K E) (T : Transaction) (name : K) : Option Bool :=
  if (cs.entries name).isEmpty then some false
  else (traverseVersionChains T (cs.entries name)).map fun entry => !entry.isDeleted

/-- The messages of the exceptions. -/
def notExist [ToString K] (name : K) : String := s!"{name} does not exist in catalog."

@[inherit_doc notExist]
def alreadyExists [ToString K] (name : K) : String := s!"{name} already exists in catalog."

@[inherit_doc notExist]
def createConflict [ToString K] (name : K) : String :=
  s!"Write-write conflict on creating catalog entry with name {name}."

@[inherit_doc notExist]
def entryExists [ToString K] (name : K) : String :=
  s!"Catalog entry with name {name} already exists."

/-- `getEntryNoLock`. -/
def getEntry [ToString K] (cs : CatalogSet K E) (T : Transaction) (name : K) :
    Option (Except String (CatalogEntry E)) := do
  if ← cs.containsEntry T name then
    return .ok (← traverseVersionChains T (cs.entries name))
  else
    return .error (notExist name)

/-- `emplaceNoLock` of an entry that is allocated here. -/
def emplace (cs : CatalogSet K E) (name : K) (oid timestamp : ℕ) (content : Option E) :
    CatalogSet K E :=
  { cs.setChain name (⟨cs.nextPtr, oid, timestamp, content⟩ :: cs.entries name) with
    nextPtr := cs.nextPtr + 1 }

/-- The end of `createEntryNoLock`: a chain starts with a dummy entry. -/
def createOn (cs : CatalogSet K E) (T : Transaction) (name : K) (oid : ℕ) (content : E) :
    CatalogSet K E × ℕ :=
  let cs := if (cs.entries name).isEmpty then cs.emplace name oid 0 none else cs
  (cs.emplace name oid T.id (some content), ((cs.entries name).head?.map CatalogEntry.ptr).getD 0)

/-- `createEntryNoLock`: the new state and the address of the entry below the new one. -/
def createEntryNoLock [ToString K] (cs : CatalogSet K E) (T : Transaction) (name : K) (oid : ℕ)
    (content : E) : Option (Except String (CatalogSet K E × ℕ)) := do
  if ← cs.containsEntry T name then
    return .error (alreadyExists name)
  match (cs.entries name).head? with
  | some existingEntry =>
    if checkWWConflict T existingEntry then
      return .error (createConflict name)
    if !existingEntry.isDeleted then
      return .error (entryExists name)
    return .ok (cs.createOn T name oid content)
  | none => return .ok (cs.createOn T name oid content)

/-- `createEntry`: the id is used up also when the entry cannot be created. -/
def createEntry [ToString K] (cs : CatalogSet K E) (T : Transaction) (name : K) (content : E) :
    Option (CatalogSet K E × Except String ℕ) := do
  let oid := cs.nextOID
  let cs := { cs with nextOID := cs.nextOID + 1 }
  match ← cs.createEntryNoLock T name oid content with
  | .ok (cs, prev) => return (cs, .ok prev)
  | .error e => return (cs, .error e)

/-- `dropEntryNoLock`: puts a tombstone on the chain, whatever is on top of it. -/
def dropEntryNoLock [ToString K] (cs : CatalogSet K E) (T : Transaction) (name : K) (oid : ℕ) :
    Option (Except String (CatalogSet K E × ℕ)) := do
  if ← cs.containsEntry T name then
    let prev ← (cs.entries name).head?
    return .ok (cs.emplace name oid T.id none, prev.ptr)
  else
    return .error (notExist name)

/-- `alterTableEntry`, all kinds but `RENAME`: `alter` makes the new content.  The record is about
the entry that the transaction sees. -/
def alterTableEntry [ToString K] (cs : CatalogSet K E) (T : Transaction) (name : K)
    (alter : E → E) : Option (Except String (CatalogSet K E × ℕ)) := do
  match ← cs.getEntry T name with
  | .error e => return .error e
  | .ok entry =>
    return .ok (cs.emplace name entry.oid T.id (entry.content.map alter), entry.ptr)

/-- `alterTableEntry` for `RENAME`, a drop and a creation with one record each.  When the second
throws the tombstone of the first stays. -/
def renameTableEntry [ToString K] (cs : CatalogSet K E) (T : Transaction) (name newName : K)
    (alter : E → E) :
    Option (CatalogSet K E × Except String (List (CatalogEntryRecord K))) := do
  match ← cs.getEntry T name with
  | .error e => return (cs, .error e)
  | .ok entry =>
    let content ← entry.content
    match ← cs.dropEntryNoLock T name entry.oid with
    | .error e => return (cs, .error e)
    | .ok (cs, _) =>
      match ← cs.createEntryNoLock T newName entry.oid (alter content) with
      | .error e => return (cs, .error e)
      | .ok (cs, created) => return (cs, .ok [⟨name, entry.ptr⟩, ⟨newName, created⟩])

/-! ### Undo records -/

/-- Writes the timestamp of `catalogEntry->getNext()`. -/
def setNextTimestamp (catalogEntry commitTS : ℕ) :
    List (CatalogEntry E) → Option (List (CatalogEntry E))
  | newer :: entry :: older =>
    if entry.ptr = catalogEntry then some ({ newer with timestamp := commitTS } :: entry :: older)
    else (setNextTimestamp catalogEntry commitTS (entry :: older)).map (newer :: ·)
  | _ => none

/-- Takes `catalogEntry->getNext()` out of the chain.  When it is the newest entry, the name is
erased and the older entry emplaced again. -/
def unlinkNext (catalogEntry : ℕ) : List (CatalogEntry E) → Option (List (CatalogEntry E))
  | newer :: entry :: older =>
    if entry.ptr = catalogEntry then some (entry :: older)
    else (unlinkNext catalogEntry (entry :: older)).map (newer :: ·)
  | _ => none

/-- `UndoBuffer::commitCatalogEntryRecord`. -/
def commitRecord (commitTS : ℕ) (cs : CatalogSet K E) (r : CatalogEntryRecord K) :
    Option (CatalogSet K E) :=
  (setNextTimestamp r.catalogEntry commitTS (cs.entries r.name)).map (cs.setChain r.name)

/-- `UndoBuffer::rollbackCatalogEntryRecord`. -/
def rollbackRecord (cs : CatalogSet K E) (r : CatalogEntryRecord K) : Option (CatalogSet K E) :=
  (unlinkNext r.catalogEntry (cs.entries r.name)).map (cs.setChain r.name)

end CatalogSet

end Ladybug
