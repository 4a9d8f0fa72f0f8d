import Ladybug.Index.InMemHashIndex

/-!
# The primary key index

`PrimaryKeyIndex` spreads its keys over `NUM_HASH_INDEXES` hash indexes by the top bits of the
hash. A `HashIndex` has a persistent part, which only a checkpoint changes, and the local
insertions since the last one, an `InMemHashIndex`.

The persistent part is seen through `lookupInPersistentIndex` and its number of entries. The set
`localDeletions` is left out: keys come into it only through `deleteInternal`, which no caller of
the index of a table reaches.
-/

namespace Ladybug

structure HashIndex (K : Type) where
  /-- `localStorage->localInsertions` -/
  localInsertions : InMemHashIndex K
  /-- `indexHeaderForWriteTrx.numEntries` -/
  numPersistentEntries : ℕ
  lookupInPersistentIndex : K → (ℕ → Bool) → Option ℕ

namespace HashIndex

variable {K : Type} [Inhabited K] [BEq K] (cap : ℕ) (hash : K → ℕ)

def lookupInternal (idx : HashIndex K) (key : K) (isVisible : ℕ → Bool) :
    Option (Option ℕ) := do
  match ← idx.localInsertions.lookup cap hash key isVisible with
  | some result => return some result
  | none => return idx.lookupInPersistentIndex key isVisible

def discardLocal (idx : HashIndex K) (key : K) : Option (HashIndex K × Bool) := do
  let (localInsertions, deleted) ← idx.localInsertions.deleteKey cap hash key
  return ({ idx with localInsertions }, deleted)

def insertInternal (idx : HashIndex K) (key : K) (value : ℕ) (isVisible : ℕ → Bool) :
    Option (HashIndex K × Bool) := do
  match ← idx.localInsertions.lookup cap hash key isVisible with
  | some _ => return (idx, false)
  | none =>
    if (idx.lookupInPersistentIndex key isVisible).isSome then return (idx, false)
    else
      let (localInsertions, inserted) ← idx.localInsertions.append cap hash key value isVisible
      return ({ idx with localInsertions }, inserted)

/-- The loop of `appendNoLock` over a buffer when the persistent index has entries.  A key of the
local insertions does not stop it. -/
def appendLoop (isVisible : ℕ → Bool) :
    List (K × ℕ) → HashIndex K → ℕ → ℕ → Option (HashIndex K × ℕ)
  | [], idx, _, numValuesInserted => some (idx, numValuesInserted)
  | (key, value) :: rest, idx, i, numValuesInserted =>
    if (idx.lookupInPersistentIndex key isVisible).isSome then some (idx, i)
    else do
      let (localInsertions, inserted) ← idx.localInsertions.append cap hash key value isVisible
      appendLoop isVisible rest { idx with localInsertions } (i + 1)
        (numValuesInserted + inserted.toNat)

def appendNoLock (idx : HashIndex K) (buffer : List (K × ℕ)) (bufferOffset : ℕ)
    (isVisible : ℕ → Bool) : Option (HashIndex K × ℕ) :=
  if 0 < idx.numPersistentEntries then do
    -- `reserveSpaceForAppendNoLock`
    let localInsertions ← idx.localInsertions.reserve cap hash
      (idx.localInsertions.indexHeader.numEntries + (buffer.length - bufferOffset))
    appendLoop cap hash isVisible (buffer.drop bufferOffset) { idx with localInsertions } 0 0
  else do
    let (localInsertions, n) ← idx.localInsertions.appendBuffer cap hash buffer bufferOffset
      isVisible
    return ({ idx with localInsertions }, n)

end HashIndex

/-- `NUM_HASH_INDEXES`. -/
def numHashIndexes : ℕ := 256

/-- `HashIndexUtils::getHashIndexPosition` of a hash. -/
def getHashIndexPosition (hash : ℕ) : ℕ := (hash >>> 56) &&& (numHashIndexes - 1)

lemma getHashIndexPosition_lt (hash : ℕ) : getHashIndexPosition hash < numHashIndexes :=
  lt_of_le_of_lt Nat.and_le_right (by decide)

structure PrimaryKeyIndex (K : Type) where
  hashIndices : ℕ → HashIndex K

namespace PrimaryKeyIndex

variable {K : Type} [Inhabited K] [BEq K] (cap : ℕ) (hash : K → ℕ)

def getTypedHashIndex (idx : PrimaryKeyIndex K) (key : K) : HashIndex K :=
  idx.hashIndices (getHashIndexPosition (hash key))

/-- The hash index at a position changes. -/
def setHashIndex (idx : PrimaryKeyIndex K) (pos : ℕ) (hashIndex : HashIndex K) :
    PrimaryKeyIndex K :=
  ⟨Function.update idx.hashIndices pos hashIndex⟩

omit [Inhabited K] [BEq K] in
@[simp] lemma setHashIndex_self (idx : PrimaryKeyIndex K) (pos : ℕ) (hashIndex : HashIndex K) :
    (idx.setHashIndex pos hashIndex).hashIndices pos = hashIndex := Function.update_self ..

omit [Inhabited K] [BEq K] in
lemma setHashIndex_of_ne (idx : PrimaryKeyIndex K) {pos pos' : ℕ} (h : pos' ≠ pos)
    (hashIndex : HashIndex K) :
    (idx.setHashIndex pos hashIndex).hashIndices pos' = idx.hashIndices pos' :=
  Function.update_of_ne h ..

def lookup (idx : PrimaryKeyIndex K) (key : K) (isVisible : ℕ → Bool) : Option (Option ℕ) :=
  (idx.getTypedHashIndex hash key).lookupInternal cap hash key isVisible

def insert (idx : PrimaryKeyIndex K) (key : K) (value : ℕ) (isVisible : ℕ → Bool) :
    Option (PrimaryKeyIndex K × Bool) := do
  let (hashIndex, inserted) ←
    (idx.getTypedHashIndex hash key).insertInternal cap hash key value isVisible
  return (idx.setHashIndex (getHashIndexPosition (hash key)) hashIndex, inserted)

def discardLocal (idx : PrimaryKeyIndex K) (key : K) : Option (PrimaryKeyIndex K × Bool) := do
  let (hashIndex, deleted) ← (idx.getTypedHashIndex hash key).discardLocal cap hash key
  return (idx.setHashIndex (getHashIndexPosition (hash key)) hashIndex, deleted)

/-- `appendWithIndexPosNoLock`. -/
def appendWithIndexPos (idx : PrimaryKeyIndex K) (buffer : List (K × ℕ))
    (bufferOffset indexPos : ℕ) (isVisible : ℕ → Bool) : Option (PrimaryKeyIndex K × ℕ) := do
  let (hashIndex, n) ← (idx.hashIndices indexPos).appendNoLock cap hash buffer bufferOffset
    isVisible
  return (idx.setHashIndex indexPos hashIndex, n)

/-! ### The insertions of a batch -/

/-- A call that inserts keys of a batch: one key at a commit (`commitInsert`), or a buffer of keys
of one hash index in a bulk insert. -/
inductive InsertCall (hash : K → ℕ) where
  | insert (key : K) (value : ℕ) (isVisible : ℕ → Bool)
  | append (buffer : List (K × ℕ)) (bufferOffset indexPos : ℕ) (isVisible : ℕ → Bool)
      (inBuffer : bufferOffset ≤ buffer.length) (indexPos_lt : indexPos < numHashIndexes)
      (positions : ∀ e ∈ buffer, getHashIndexPosition (hash e.1) = indexPos)

namespace InsertCall

variable {hash}

/-- The entries that the call may insert. -/
def entries : InsertCall hash → List (K × ℕ)
  | insert key value _ => [(key, value)]
  | append buffer bufferOffset _ _ _ _ _ => buffer.drop bufferOffset

/-- The call.  The caller throws or goes on, whatever it returns. -/
def run (idx : PrimaryKeyIndex K) : InsertCall hash → Option (PrimaryKeyIndex K)
  | insert key value isVisible => do return (← idx.insert cap hash key value isVisible).1
  | append buffer bufferOffset indexPos isVisible _ _ _ => do
    return (← idx.appendWithIndexPos cap hash buffer bufferOffset indexPos isVisible).1

end InsertCall

/-- The insertions of a batch until it ends or fails. -/
def runInserts (idx : PrimaryKeyIndex K) (calls : List (InsertCall hash)) :
    Option (PrimaryKeyIndex K) :=
  calls.foldlM (InsertCall.run cap) idx

end PrimaryKeyIndex

end Ladybug
