import Mathlib.Data.Nat.Bitwise

/-!
# Slots, headers and addressing of the hash index

The in-memory and the persistent hash index share their slots, their header and the way a hash
addresses a primary slot. A *slot* has `SLOT_CAPACITY` positions and a link to the next slot of
its chain; the first slot of a chain is a primary slot, the others are overflow slots.

The index grows by linear hashing: slots below `nextSplitSlotId` have already been split at the
current level, so that their hashes are read with one bit more.

`INVALID_OVERFLOW_SLOT_ID` is `none`.
-/

namespace Ladybug

inductive SlotType where
  | PRIMARY
  | OVF
  deriving Repr, DecidableEq

/-- `SlotInfo`: where a slot lies. -/
structure SlotInfo where
  slotId : ℕ
  slotType : SlotType
  deriving Repr, DecidableEq

/-- One position of a slot: its bit of `validityMask`, its fingerprint, and its entry. -/
structure SlotCell (K : Type) where
  valid : Bool
  fingerprint : ℕ
  key : K
  value : ℕ
  deriving Repr, DecidableEq, Inhabited

/-- `Slot`: the positions, and `nextOvfSlotId` of the slot's header. -/
structure Slot (K : Type) where
  cells : List (SlotCell K)
  nextOvfSlotId : Option ℕ
  deriving Repr, DecidableEq, Inhabited

namespace Slot

variable {K : Type} [Inhabited K]

/-- A slot as its constructor leaves it. -/
def empty (cap : ℕ) : Slot K where
  cells := List.replicate cap ⟨false, 0, default, 0⟩
  nextOvfSlotId := none

/-- The position `entryPos`. -/
def cell (s : Slot K) (entryPos : ℕ) : SlotCell K := s.cells.getD entryPos default

def isEntryValid (s : Slot K) (entryPos : ℕ) : Bool := (s.cell entryPos).valid

/-- `SlotHeader::numEntries`, the population count of the validity mask. -/
def numEntries (s : Slot K) : ℕ := s.cells.countP (·.valid)

/-- The assignment `entries[entryPos] = SlotEntry(key, value)`. -/
def setEntry (s : Slot K) (entryPos : ℕ) (key : K) (value : ℕ) : Slot K :=
  { s with cells := s.cells.modify entryPos fun c => { c with key := key, value := value } }

def setEntryValid (s : Slot K) (entryPos fingerprint : ℕ) : Slot K :=
  { s with cells := s.cells.modify entryPos fun c =>
      { c with valid := true, fingerprint := fingerprint } }

def setEntryInvalid (s : Slot K) (entryPos : ℕ) : Slot K :=
  { s with cells := s.cells.modify entryPos fun c => { c with valid := false } }

/-- The assignment `header.nextOvfSlotId = next`. -/
def setNext (s : Slot K) (next : Option ℕ) : Slot K := { s with nextOvfSlotId := next }

end Slot

/-- `HashIndexHeader`.  The masks are computed with shifts of `int`, which are exact up to
level 30; the indexes stay below `2 ^ 31` primary slots. -/
structure HashIndexHeader where
  currentLevel : ℕ := 1
  levelHashMask : ℕ := 1
  higherLevelHashMask : ℕ := 3
  nextSplitSlotId : ℕ := 0
  numEntries : ℕ := 0
  firstFreeOverflowSlotId : Option ℕ := none
  deriving Repr, DecidableEq

namespace HashIndexHeader

def incrementLevel (h : HashIndexHeader) : HashIndexHeader :=
  { h with
    currentLevel := h.currentLevel + 1
    nextSplitSlotId := 0
    levelHashMask := 2 ^ (h.currentLevel + 1) - 1
    higherLevelHashMask := 2 ^ (h.currentLevel + 2) - 1 }

def incrementNextSplitSlotId (h : HashIndexHeader) : HashIndexHeader :=
  if h.nextSplitSlotId < 2 ^ h.currentLevel - 1 then
    { h with nextSplitSlotId := h.nextSplitSlotId + 1 }
  else h.incrementLevel

end HashIndexHeader

namespace HashIndexUtils

def getFingerprintForHash (hash : ℕ) : ℕ := (hash >>> 48) &&& 255

def getPrimarySlotIdForHash (header : HashIndexHeader) (hash : ℕ) : ℕ :=
  let slotId := hash &&& header.levelHashMask
  if slotId < header.nextSplitSlotId then hash &&& header.higherLevelHashMask else slotId

/-- `getNumRequiredEntries`: the load factor is `1.5`. -/
def getNumRequiredEntries (numEntries : ℕ) : ℕ := (3 * numEntries + 1) / 2

end HashIndexUtils

end Ladybug
