import Ladybug.Index.HashIndexSlot

/-!
# The in-memory hash index

`InMemHashIndex` keeps the insertions that are not yet in the persistent index. Its primary and
overflow slots lie in two growing vectors; a chain starts in a primary slot and goes on through
`nextOvfSlotId`. Overflow slots that are no longer needed form a chain of their own, the *free
list*, that starts at `firstFreeOverflowSlotId` of the header.

`cap` is `SLOT_CAPACITY` and `hash` is `HashIndexUtils::hash`. A walk along a chain is bounded by
the number of slots there are; `none` stands for a walk that would not end.
-/

namespace Ladybug

structure InMemHashIndex (K : Type) where
  pSlots : List (Slot K)
  oSlots : List (Slot K)
  indexHeader : HashIndexHeader
  numFreeSlots : ℕ
  deriving Repr, DecidableEq

namespace InMemHashIndex

open HashIndexUtils

variable {K : Type} [Inhabited K] [BEq K] (cap : ℕ) (hash : K → ℕ)

/-! ### Slots and chains -/

def getSlot (idx : InMemHashIndex K) (slotInfo : SlotInfo) : Slot K :=
  match slotInfo.slotType with
  | .PRIMARY => idx.pSlots.getD slotInfo.slotId default
  | .OVF => idx.oSlots.getD slotInfo.slotId default

/-- A write through the pointer that `getSlot` returns. -/
def updateSlot (idx : InMemHashIndex K) (slotInfo : SlotInfo) (f : Slot K → Slot K) :
    InMemHashIndex K :=
  match slotInfo.slotType with
  | .PRIMARY => { idx with pSlots := idx.pSlots.modify slotInfo.slotId f }
  | .OVF => { idx with oSlots := idx.oSlots.modify slotInfo.slotId f }

/-- `nextChainedSlot`: the slot after the one at `iter`, if there is one. -/
def nextChainedSlot (idx : InMemHashIndex K) (iter : SlotInfo) : Option SlotInfo :=
  (idx.getSlot iter).nextOvfSlotId.map fun slotId => ⟨slotId, .OVF⟩

/-- A bound on the number of slots of a chain. -/
def maxChain (idx : InMemHashIndex K) : ℕ := idx.oSlots.length + 1

/-- `while (nextChainedSlot(iter)) {}`. -/
def lastChainedSlot (idx : InMemHashIndex K) : ℕ → SlotInfo → Option SlotInfo
  | 0, _ => none
  | fuel + 1, iter =>
    match idx.nextChainedSlot iter with
    | some next => lastChainedSlot idx fuel next
    | none => some iter

/-- `countSlots`, from a primary slot. -/
def countSlots (idx : InMemHashIndex K) : ℕ → SlotInfo → Option ℕ
  | 0, _ => none
  | fuel + 1, iter =>
    match idx.nextChainedSlot iter with
    | some next => (countSlots idx fuel next).map (· + 1)
    | none => some 1

/-! ### Allocation -/

def allocatePSlots (idx : InMemHashIndex K) (numSlotsToAllocate : ℕ) : InMemHashIndex K :=
  { idx with pSlots := idx.pSlots ++ List.replicate numSlotsToAllocate (Slot.empty cap) }

/-- The loop of `allocateSlots` that raises the level. -/
def raiseLevel (newNumSlots : ℕ) : ℕ → HashIndexHeader → HashIndexHeader
  | 0, header => header
  | fuel + 1, header =>
    if 2 ^ header.currentLevel * 2 ≤ newNumSlots then
      raiseLevel newNumSlots fuel header.incrementLevel
    else header

/-- `allocateSlots`.  The level is below the number of slots, which bounds the loop. -/
def allocateSlots (idx : InMemHashIndex K) (newNumSlots : ℕ) : InMemHashIndex K :=
  let idx := if newNumSlots > idx.pSlots.length then
    idx.allocatePSlots cap (newNumSlots - idx.pSlots.length) else idx
  let header := raiseLevel newNumSlots newNumSlots idx.indexHeader
  { idx with indexHeader := if newNumSlots ≥ 2 ^ header.currentLevel then { header with
      nextSplitSlotId := newNumSlots - 2 ^ header.currentLevel } else header }

/-- The slots that fit one page, `LBUG_PAGE_SIZE / getAlignedElementSize()`. -/
def slotsPerPage : ℕ := 4096 / 256

def create : InMemHashIndex K :=
  allocateSlots cap ⟨[], [], {}, 0⟩ slotsPerPage

def clear (idx : InMemHashIndex K) : InMemHashIndex K :=
  allocateSlots cap { idx with pSlots := [], oSlots := [], indexHeader := {} } slotsPerPage

def addFreeOverflowSlot (idx : InMemHashIndex K) (slotId : ℕ) : InMemHashIndex K :=
  let idx := idx.updateSlot ⟨slotId, .OVF⟩ (·.setNext idx.indexHeader.firstFreeOverflowSlotId)
  { idx with
    indexHeader := { idx.indexHeader with firstFreeOverflowSlotId := some slotId }
    numFreeSlots := idx.numFreeSlots + 1 }

def allocateAOSlot (idx : InMemHashIndex K) : ℕ × InMemHashIndex K :=
  match idx.indexHeader.firstFreeOverflowSlotId with
  | none => (idx.oSlots.length, { idx with oSlots := idx.oSlots ++ [Slot.empty cap] })
  | some freeOSlotId =>
    let slot := idx.getSlot ⟨freeOSlotId, .OVF⟩
    let idx := idx.updateSlot ⟨freeOSlotId, .OVF⟩ (·.setNext none)
    (freeOSlotId,
      { idx with
        indexHeader := { idx.indexHeader with firstFreeOverflowSlotId := slot.nextOvfSlotId }
        numFreeSlots := idx.numFreeSlots - 1 })

/-- The loop of `reserveOverflowSlots`.  Its bound shrinks with every slot that is freed, so about
half of the new slots reach the free list. -/
def addFreeOverflowSlots (totalSlotsRequired : ℕ) :
    ℕ → ℕ → ℕ → InMemHashIndex K → InMemHashIndex K
  | 0, _, _, idx => idx
  | fuel + 1, i, newSlotId, idx =>
    if i < totalSlotsRequired - idx.numFreeSlots then
      addFreeOverflowSlots totalSlotsRequired fuel (i + 1) (newSlotId + 1)
        (idx.addFreeOverflowSlot newSlotId)
    else idx

def reserveOverflowSlots (idx : InMemHashIndex K) (totalSlotsRequired : ℕ) : InMemHashIndex K :=
  if totalSlotsRequired > idx.numFreeSlots then
    let numNew := totalSlotsRequired - idx.numFreeSlots
    addFreeOverflowSlots totalSlotsRequired numNew 0 idx.oSlots.length
      { idx with oSlots := idx.oSlots ++ List.replicate numNew (Slot.empty cap) }
  else idx

/-! ### Reclaiming overflow slots -/

/-- The first loop of `reclaimOverflowSlots`: the last slot that is kept, and the first one that
is not. -/
def skipNonEmpty (idx : InMemHashIndex K) :
    ℕ → SlotInfo → SlotInfo → Option (SlotInfo × Option SlotInfo)
  | 0, _, _ => none
  | fuel + 1, iter, lastNonEmptySlot =>
    if (idx.getSlot iter).numEntries > 0 ∨ iter.slotType = .PRIMARY then
      match idx.nextChainedSlot iter with
      | some next => skipNonEmpty idx fuel next iter
      | none => some (iter, none)
    else some (lastNonEmptySlot, some iter)

/-- The second loop of `reclaimOverflowSlots`, with `clearNextOverflowAndAdvanceIter`. -/
def freeSlots : ℕ → Option SlotInfo → InMemHashIndex K → Option (InMemHashIndex K)
  | _, none, idx => some idx
  | 0, some _, _ => none
  | fuel + 1, some slotInfo, idx =>
    let next := idx.nextChainedSlot slotInfo
    let idx := idx.updateSlot slotInfo (·.setNext none)
    let idx := if slotInfo.slotType = .OVF then idx.addFreeOverflowSlot slotInfo.slotId else idx
    freeSlots fuel next idx

def reclaimOverflowSlots (idx : InMemHashIndex K) (iter : SlotInfo) :
    Option (InMemHashIndex K) :=
  if (idx.getSlot iter).nextOvfSlotId.isSome then do
    let (lastNonEmptySlot, rest) ← idx.skipNonEmpty idx.maxChain iter iter
    freeSlots idx.maxChain rest (idx.updateSlot lastNonEmptySlot (·.setNext none))
  else some idx

/-! ### Splitting -/

/-- The local variables of `splitSlot` that its loop changes. -/
structure SplitState (K : Type) where
  index : InMemHashIndex K
  originalSlotForInsert : SlotInfo
  entryPosToInsert : ℕ
  newSlot : SlotInfo
  newSlotPos : ℕ
  gaps : Bool

/-- The loop that moves `originalSlotForInsert` to the first gap. -/
def findGap (idx : InMemHashIndex K) : ℕ → SlotInfo → ℕ → Option (SlotInfo × ℕ)
  | 0, _, _ => none
  | fuel + 1, slotInfo, entryPos =>
    if (idx.getSlot slotInfo).isEntryValid entryPos then
      if entryPos + 1 ≥ cap then
        findGap idx fuel ((idx.nextChainedSlot slotInfo).getD slotInfo) 0
      else findGap idx fuel slotInfo (entryPos + 1)
    else some (slotInfo, entryPos)

/-- The slot and position at which the next moved entry is put: a new overflow slot when the
current one is full. -/
def nextNewPos (s : SplitState K) : SplitState K :=
  if s.newSlotPos ≥ cap then
    let (newOvfSlotId, idx) := s.index.allocateAOSlot cap
    let idx := idx.updateSlot s.newSlot (·.setNext (some newOvfSlotId))
    { s with index := idx, newSlot := (idx.nextChainedSlot s.newSlot).getD s.newSlot
             newSlotPos := 0 }
  else s

/-- `entries[entryPos] = entry` and `setEntryValid(entryPos, fingerprint)`. -/
def putEntry (idx : InMemHashIndex K) (slotInfo : SlotInfo) (entryPos : ℕ) (key : K)
    (value fingerprint : ℕ) : InMemHashIndex K :=
  idx.updateSlot slotInfo fun s => (s.setEntry entryPos key value).setEntryValid entryPos
    fingerprint

/-- One valid entry of the slot that is split. -/
def splitEntry (originalSlot : SlotInfo) (entryPos : ℕ) (s : SplitState K) :
    Option (SplitState K) :=
  let entry := (s.index.getSlot originalSlot).cell entryPos
  let fingerprint := getFingerprintForHash (hash entry.key)
  let header := s.index.indexHeader
  if hash entry.key &&& header.higherLevelHashMask ≠ header.nextSplitSlotId then
    let s := nextNewPos cap s
    let idx := s.index.putEntry s.newSlot s.newSlotPos entry.key entry.value fingerprint
    let idx := idx.updateSlot originalSlot (·.setEntryInvalid entryPos)
    some { s with index := idx, newSlotPos := s.newSlotPos + 1, gaps := true }
  else if s.gaps then do
    let (slotInfo, pos) ← s.index.findGap cap (s.index.maxChain * cap + 1)
      s.originalSlotForInsert s.entryPosToInsert
    let idx := s.index.putEntry slotInfo pos entry.key entry.value fingerprint
    let idx := idx.updateSlot originalSlot (·.setEntryInvalid entryPos)
    return { s with index := idx, originalSlotForInsert := slotInfo, entryPosToInsert := pos }
  else some s

/-- The loop over the positions of one slot; `true` when it met an invalid entry. -/
def splitEntries (originalSlot : SlotInfo) :
    List ℕ → SplitState K → Option (SplitState K × Bool)
  | [], s => some (s, false)
  | entryPos :: rest, s =>
    if (s.index.getSlot originalSlot).isEntryValid entryPos then do
      let s ← splitEntry cap hash originalSlot entryPos s
      splitEntries originalSlot rest s
    else some (s, true)

/-- The loop over the slots of the chain that is split. -/
def splitChain : ℕ → SlotInfo → SplitState K → Option (SplitState K)
  | 0, _, _ => none
  | fuel + 1, originalSlot, s => do
    let (s, ended) ← splitEntries cap hash originalSlot (List.range cap) s
    if ended then some s
    else match s.index.nextChainedSlot originalSlot with
      | some next => splitChain fuel next s
      | none => some s

def splitSlot (idx : InMemHashIndex K) : Option (InMemHashIndex K) := do
  let idx := idx.allocatePSlots cap 1
  let originalSlot : SlotInfo := ⟨idx.indexHeader.nextSplitSlotId, .PRIMARY⟩
  let idx := idx.reserveOverflowSlots cap (← idx.countSlots idx.maxChain originalSlot)
  let s ← splitChain cap hash idx.maxChain originalSlot
    { index := idx, originalSlotForInsert := originalSlot, entryPosToInsert := 0
      newSlot := ⟨idx.pSlots.length - 1, .PRIMARY⟩, newSlotPos := 0, gaps := false }
  let idx ← s.index.reclaimOverflowSlots s.originalSlotForInsert
  return { idx with indexHeader := idx.indexHeader.incrementNextSplitSlotId }

/-- The loop of `reserve`. -/
def splitUntil (numRequiredSlots : ℕ) : ℕ → InMemHashIndex K → Option (InMemHashIndex K)
  | 0, idx => if idx.pSlots.length < numRequiredSlots then none else some idx
  | fuel + 1, idx =>
    if idx.pSlots.length < numRequiredSlots then do
      splitUntil numRequiredSlots fuel (← idx.splitSlot cap hash)
    else some idx

/-- `reserve`.  Its argument is a `uint32_t`. -/
def reserve (idx : InMemHashIndex K) (numEntries : ℕ) : Option (InMemHashIndex K) :=
  let numRequiredEntries := getNumRequiredEntries (numEntries % 2 ^ 32)
  let numRequiredSlots := (numRequiredEntries + cap - 1) / cap
  if numRequiredSlots ≤ idx.pSlots.length then some idx
  else if idx.indexHeader.numEntries = 0 then some (idx.allocateSlots cap numRequiredSlots)
  else splitUntil cap hash numRequiredSlots numRequiredSlots idx

/-! ### Lookups, insertions and deletions -/

/-- `findEntry`: the slot where the search ended, and the position of the entry if it was found. -/
def findEntry (idx : InMemHashIndex K) (key : K) (fingerprint : ℕ) (isVisible : ℕ → Bool) :
    ℕ → SlotInfo → Option (SlotInfo × Option ℕ)
  | 0, _ => none
  | fuel + 1, iter =>
    let slot := idx.getSlot iter
    let numEntries := slot.numEntries
    match (List.range numEntries).find? fun entryPos =>
        (slot.cell entryPos).fingerprint == fingerprint && key == (slot.cell entryPos).key &&
          isVisible (slot.cell entryPos).value with
    | some entryPos => some (iter, some entryPos)
    | none =>
      if numEntries < cap then some (iter, none)
      else match idx.nextChainedSlot iter with
        | some next => findEntry idx key fingerprint isVisible fuel next
        | none => some (iter, none)

def lookup (idx : InMemHashIndex K) (key : K) (isVisible : ℕ → Bool) : Option (Option ℕ) :=
  if idx.indexHeader.numEntries = 0 then some none
  else do
    let slotId := getPrimarySlotIdForHash idx.indexHeader (hash key)
    let (iter, entryPos) ← idx.findEntry cap key (getFingerprintForHash (hash key)) isVisible
      idx.maxChain ⟨slotId, .PRIMARY⟩
    return entryPos.map fun pos => ((idx.getSlot iter).cell pos).value

def insertToNewOvfSlot (idx : InMemHashIndex K) (key : K) (previousSlot : SlotInfo)
    (value fingerprint : ℕ) : InMemHashIndex K :=
  let (newSlotId, idx) := idx.allocateAOSlot cap
  let idx := idx.updateSlot previousSlot (·.setNext (some newSlotId))
  idx.putEntry ⟨newSlotId, .OVF⟩ 0 key value fingerprint

/-- `appendInternal`: whether the key was inserted. -/
def appendInternal (idx : InMemHashIndex K) (key : K) (value : ℕ) (isVisible : ℕ → Bool) :
    Option (InMemHashIndex K × Bool) := do
  let fingerprint := getFingerprintForHash (hash key)
  let slotID := getPrimarySlotIdForHash idx.indexHeader (hash key)
  let (iter, entryPos) ← idx.findEntry cap key fingerprint isVisible idx.maxChain
    ⟨slotID, .PRIMARY⟩
  let numEntries := (idx.getSlot iter).numEntries
  if entryPos.isSome then return (idx, false)
  let idx := if numEntries < cap then idx.putEntry iter numEntries key value fingerprint
    else idx.insertToNewOvfSlot cap key iter value fingerprint
  return ({ idx with indexHeader :=
    { idx.indexHeader with numEntries := idx.indexHeader.numEntries + 1 } }, true)

/-- `append` of one key. -/
def append (idx : InMemHashIndex K) (key : K) (value : ℕ) (isVisible : ℕ → Bool) :
    Option (InMemHashIndex K × Bool) := do
  let idx ← idx.reserve cap hash (idx.indexHeader.numEntries + 1)
  idx.appendInternal cap hash key value isVisible

/-- The loop of `append` of a buffer: the number of keys inserted before the first one that is
already there. -/
def appendEntries (isVisible : ℕ → Bool) :
    List (K × ℕ) → InMemHashIndex K → Option (InMemHashIndex K × ℕ)
  | [], idx => some (idx, 0)
  | (key, value) :: rest, idx => do
    let (idx, inserted) ← idx.appendInternal cap hash key value isVisible
    if inserted then
      let (idx, n) ← appendEntries isVisible rest idx
      return (idx, n + 1)
    else return (idx, 0)

/-- `append` of a buffer from `bufferOffset` on. -/
def appendBuffer (idx : InMemHashIndex K) (buffer : List (K × ℕ)) (bufferOffset : ℕ)
    (isVisible : ℕ → Bool) : Option (InMemHashIndex K × ℕ) := do
  let idx ← idx.reserve cap hash (idx.indexHeader.numEntries + buffer.length - bufferOffset)
  appendEntries cap hash isVisible (buffer.drop bufferOffset) idx

/-- The search loop of `deleteKey`. -/
def findValidEntry (idx : InMemHashIndex K) (key : K) (fingerprint : ℕ) :
    ℕ → SlotInfo → Option (Option (SlotInfo × ℕ))
  | 0, _ => none
  | fuel + 1, iter =>
    let slot := idx.getSlot iter
    match (List.range cap).find? fun entryPos => slot.isEntryValid entryPos &&
        (slot.cell entryPos).fingerprint == fingerprint && key == (slot.cell entryPos).key with
    | some entryPos => some (some (iter, entryPos))
    | none =>
      match idx.nextChainedSlot iter with
      | some next => findValidEntry idx key fingerprint fuel next
      | none => some none

/-- `deleteKey`: the last entry of the chain takes the place of the deleted one. -/
def deleteKey (idx : InMemHashIndex K) (key : K) : Option (InMemHashIndex K × Bool) :=
  if idx.indexHeader.numEntries = 0 then some (idx, false)
  else do
    let slotId := getPrimarySlotIdForHash idx.indexHeader (hash key)
    let found ← idx.findValidEntry cap key (getFingerprintForHash (hash key)) idx.maxChain
      ⟨slotId, .PRIMARY⟩
    match found with
    | none => return (idx, false)
    | some (iter, deletedPos) =>
      let newIter ← idx.lastChainedSlot idx.maxChain iter
      let lastEntryPos := (idx.getSlot newIter).numEntries - 1
      let idx :=
        if newIter ≠ iter ∨ deletedPos ≠ lastEntryPos then
          let last := (idx.getSlot newIter).cell lastEntryPos
          let idx := idx.putEntry iter deletedPos last.key last.value last.fingerprint
          idx.updateSlot newIter (·.setEntryInvalid lastEntryPos)
        else idx.updateSlot iter (·.setEntryInvalid deletedPos)
      let idx ← if (idx.getSlot newIter).numEntries = 0 then
        idx.reclaimOverflowSlots ⟨slotId, .PRIMARY⟩ else some idx
      return (idx, true)

/-! ### Runs -/

/-- The operations that change the index. -/
inductive Op (K : Type) where
  | append (key : K) (value : ℕ) (isVisible : ℕ → Bool)
  | appendBuffer (buffer : List (K × ℕ)) (bufferOffset : ℕ)
      (inBuffer : bufferOffset ≤ buffer.length) (isVisible : ℕ → Bool)
  | deleteKey (key : K)
  | reserve (numEntries : ℕ)
  | clear

/-- What an operation returns: a `bool` as a number, or the number of inserted keys. -/
def step (idx : InMemHashIndex K) : Op K → Option (InMemHashIndex K × ℕ)
  | .append key value isVisible => do
    let (idx, inserted) ← idx.append cap hash key value isVisible
    return (idx, inserted.toNat)
  | .appendBuffer buffer bufferOffset _ isVisible =>
    idx.appendBuffer cap hash buffer bufferOffset isVisible
  | .deleteKey key => do
    let (idx, deleted) ← idx.deleteKey cap hash key
    return (idx, deleted.toNat)
  | .reserve numEntries => do return (← idx.reserve cap hash numEntries, 0)
  | .clear => some (idx.clear cap, 0)

/-- A sequence of operations, with the results. -/
def run (idx : InMemHashIndex K) : List (Op K) → Option (InMemHashIndex K × List ℕ)
  | [] => some (idx, [])
  | op :: ops => do
    let (idx, result) ← idx.step cap hash op
    let (idx, results) ← run idx ops
    return (idx, result :: results)

end InMemHashIndex

end Ladybug
