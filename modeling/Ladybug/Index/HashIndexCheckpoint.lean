import Ladybug.Index.InMemHashIndex

/-!
# Checkpoints of the hash index

A checkpoint of a `HashIndex` moves the entries of its local insertions to the persistent index,
which `reserve` makes large enough before. Of the persistent index this module keeps what `reserve`
reads and writes: the header and the number of primary slots, one of each for readers and for the
checkpoint.

`cap` is `SLOT_CAPACITY`, `pCap` is `PERSISTENT_SLOT_CAPACITY` and `hash` is `HashIndexUtils::hash`.
The two capacities differ for string keys, which are `std::string` in memory (5 entries per slot)
and `ku_string_t` in the persistent index (9). A slot of either takes 256 bytes. A 64-bit
subtraction is taken modulo `2 ^ 64`.
-/

namespace Ladybug

open HashIndexUtils

/-! ### The local storage -/

structure HashIndexLocalStorage (K : Type) where
  localDeletions : List K
  localInsertions : InMemHashIndex K

namespace InMemHashIndex

variable {K : Type} [Inhabited K]

def size (idx : InMemHashIndex K) : ℕ := idx.indexHeader.numEntries

/-- The entries in a slot and the ones that follow it in its chain, as `sortEntries` collects
them. -/
def countChainEntries (idx : InMemHashIndex K) : ℕ → SlotInfo → Option ℕ
  | 0, _ => none
  | fuel + 1, iter =>
    match idx.nextChainedSlot iter with
    | some next => (countChainEntries idx fuel next).map ((idx.getSlot iter).numEntries + ·)
    | none => some (idx.getSlot iter).numEntries

/-- The entries that `mergeBulkInserts` finds in all primary slots. -/
def numMerged (idx : InMemHashIndex K) : Option ℕ :=
  (List.range idx.pSlots.length).foldlM
    (fun n i => (idx.countChainEntries idx.maxChain ⟨i, .PRIMARY⟩).map (n + ·)) 0

end InMemHashIndex

namespace HashIndexLocalStorage

variable {K : Type} [Inhabited K] [BEq K] (cap : ℕ) (hash : K → ℕ)

def create : HashIndexLocalStorage K := ⟨[], .create cap⟩

def deleteKey (s : HashIndexLocalStorage K) (key : K) : Option (HashIndexLocalStorage K) := do
  let (localInsertions, deleted) ← s.localInsertions.deleteKey cap hash key
  let localDeletions :=
    if deleted ∨ s.localDeletions.contains key then s.localDeletions else key :: s.localDeletions
  return { localDeletions, localInsertions }

def discard (s : HashIndexLocalStorage K) (key : K) : Option (HashIndexLocalStorage K) := do
  let (localInsertions, _) ← s.localInsertions.deleteKey cap hash key
  return { s with localInsertions }

def insert (s : HashIndexLocalStorage K) (key : K) (value : ℕ) (isVisible : ℕ → Bool) :
    Option (HashIndexLocalStorage K) := do
  let (localInsertions, _) ← s.localInsertions.append cap hash key value isVisible
  return { localDeletions := s.localDeletions.erase key, localInsertions }

/-- `append` of one key. -/
def append (s : HashIndexLocalStorage K) (key : K) (value : ℕ) (isVisible : ℕ → Bool) :
    Option (HashIndexLocalStorage K) := do
  let (localInsertions, _) ← s.localInsertions.append cap hash key value isVisible
  return { s with localInsertions }

/-- `append` of a buffer. -/
def appendBuffer (s : HashIndexLocalStorage K) (buffer : List (K × ℕ)) (bufferOffset : ℕ)
    (isVisible : ℕ → Bool) : Option (HashIndexLocalStorage K) := do
  let (localInsertions, _) ←
    s.localInsertions.appendBuffer cap hash buffer bufferOffset isVisible
  return { s with localInsertions }

def reserveInserts (s : HashIndexLocalStorage K) (newEntries : ℕ) :
    Option (HashIndexLocalStorage K) := do
  let localInsertions ← s.localInsertions.reserve cap hash newEntries
  return { s with localInsertions }

def hasUpdates (s : HashIndexLocalStorage K) : Bool :=
  !(s.localInsertions.size == 0 && s.localDeletions.isEmpty)

def getNetInserts (s : HashIndexLocalStorage K) : ℤ :=
  (s.localInsertions.size : ℤ) - s.localDeletions.length

def clear (s : HashIndexLocalStorage K) : HashIndexLocalStorage K :=
  ⟨[], s.localInsertions.clear cap⟩

end HashIndexLocalStorage

/-! ### The persistent index -/

/-- The header of the persistent index and the number of elements of `pSlots`. -/
structure PersistentIndex where
  indexHeader : HashIndexHeader
  numPrimarySlots : ℕ
  deriving Repr, DecidableEq

namespace PersistentIndex

variable (pCap : ℕ)

/-- `numRequiredSlots` of `reserve`. -/
def numRequiredSlots (p : PersistentIndex) (newEntries : ℕ) : ℕ :=
  let numRequiredEntries := getNumRequiredEntries (p.indexHeader.numEntries + newEntries)
  max (max ((numRequiredEntries + pCap - 1) / pCap) (2 ^ p.indexHeader.currentLevel))
    InMemHashIndex.slotsPerPage

/-- The number of splits that `reserve` asks for. -/
def numSlotsToSplit (p : PersistentIndex) (newEntries : ℕ) : ℕ :=
  (p.numRequiredSlots pCap newEntries + (2 ^ 64 - p.numPrimarySlots % 2 ^ 64)) % 2 ^ 64

/-- `splitSlots`: each split adds a primary slot and advances the header. -/
def splitSlots (p : PersistentIndex) (numSlotsToSplit : ℕ) : PersistentIndex where
  indexHeader := HashIndexHeader.incrementNextSplitSlotId^[numSlotsToSplit] p.indexHeader
  numPrimarySlots := p.numPrimarySlots + numSlotsToSplit

def reserve (p : PersistentIndex) (newEntries : ℕ) : PersistentIndex :=
  let numRequiredSlots := p.numRequiredSlots pCap newEntries
  if p.indexHeader.numEntries = 0 then
    let header := InMemHashIndex.raiseLevel numRequiredSlots numRequiredSlots p.indexHeader
    { numPrimarySlots := max p.numPrimarySlots numRequiredSlots
      indexHeader :=
        if numRequiredSlots ≥ 2 ^ header.currentLevel then
          { header with nextSplitSlotId := numRequiredSlots - 2 ^ header.currentLevel }
        else header }
  else p.splitSlots (p.numSlotsToSplit pCap newEntries)

/-- `mergeBulkInserts`: `mergeSlot` counts every entry that it moves. -/
def mergeBulkInserts {K : Type} [Inhabited K] (p : PersistentIndex)
    (insertLocalStorage : InMemHashIndex K) : Option PersistentIndex := do
  let p := p.reserve pCap insertLocalStorage.size
  let merged ← insertLocalStorage.numMerged
  return { p with
    indexHeader := { p.indexHeader with numEntries := p.indexHeader.numEntries + merged } }

end PersistentIndex

/-! ### Checkpoints -/

/-- `HashIndex`, as far as a checkpoint decides about its size. -/
structure CheckpointedIndex (K : Type) where
  localStorage : HashIndexLocalStorage K
  forReadTrx : PersistentIndex
  forWriteTrx : PersistentIndex

namespace CheckpointedIndex

variable {K : Type} [Inhabited K] [BEq K] (cap pCap : ℕ) (hash : K → ℕ)

def create : CheckpointedIndex K := ⟨.create cap, ⟨{}, 0⟩, ⟨{}, 0⟩⟩

/-- The persistent index after the call of `reserve` that `checkpoint` makes itself. -/
def reserveNetInserts (s : CheckpointedIndex K) : PersistentIndex :=
  if 0 < s.localStorage.getNetInserts then
    s.forWriteTrx.reserve pCap s.localStorage.getNetInserts.toNat
  else s.forWriteTrx

/-- `checkpoint` and `checkpointInMemory`. -/
def checkpoint (s : CheckpointedIndex K) : Option (CheckpointedIndex K) :=
  if s.localStorage.hasUpdates then do
    let p ← (s.reserveNetInserts pCap).mergeBulkInserts pCap s.localStorage.localInsertions
    return ⟨s.localStorage.clear cap, p, p⟩
  else some s

/-- A checkpoint that fails before `checkpointInMemory`, and `rollbackCheckpoint`. -/
def failedCheckpoint (s : CheckpointedIndex K) : CheckpointedIndex K :=
  { s with forWriteTrx := s.forReadTrx }

/-- The calls of `reserve` that a checkpoint makes: the persistent index that they find and the
number of new entries. -/
def reserveCalls (s : CheckpointedIndex K) : List (PersistentIndex × ℕ) :=
  if s.localStorage.hasUpdates then
    (if 0 < s.localStorage.getNetInserts then
      [(s.forWriteTrx, s.localStorage.getNetInserts.toNat)] else []) ++
      [(s.reserveNetInserts pCap, s.localStorage.localInsertions.size)]
  else []

/-- What is done with a hash index. -/
inductive Action (K : Type) where
  | insert (key : K) (value : ℕ) (isVisible : ℕ → Bool)
  | append (key : K) (value : ℕ) (isVisible : ℕ → Bool)
  | appendBuffer (buffer : List (K × ℕ)) (bufferOffset : ℕ)
      (inBuffer : bufferOffset ≤ buffer.length) (isVisible : ℕ → Bool)
  | reserveInserts (newEntries : ℕ)
  | deleteKey (key : K)
  | discard (key : K)
  | checkpoint
  | failedCheckpoint

def step (s : CheckpointedIndex K) : Action K → Option (CheckpointedIndex K)
  | .insert key value isVisible => do
    return { s with localStorage := ← s.localStorage.insert cap hash key value isVisible }
  | .append key value isVisible => do
    return { s with localStorage := ← s.localStorage.append cap hash key value isVisible }
  | .appendBuffer buffer bufferOffset _ isVisible => do
    return { s with
      localStorage := ← s.localStorage.appendBuffer cap hash buffer bufferOffset isVisible }
  | .reserveInserts newEntries => do
    return { s with localStorage := ← s.localStorage.reserveInserts cap hash newEntries }
  | .deleteKey key => do
    return { s with localStorage := ← s.localStorage.deleteKey cap hash key }
  | .discard key => do return { s with localStorage := ← s.localStorage.discard cap hash key }
  | .checkpoint => s.checkpoint cap pCap
  | .failedCheckpoint => some s.failedCheckpoint

def run (s : CheckpointedIndex K) (as : List (Action K)) : Option (CheckpointedIndex K) :=
  as.foldlM (step cap pCap hash) s

end CheckpointedIndex

end Ladybug
