import Mathlib.Data.List.Basic

/-!
# Disk arrays

A disk array keeps its elements in *array pages* (APs) of a file. The indexes of the array pages
lie in *page index pages* (PIPs), which form a chain that starts at the header. The PIPs are cached
in memory. Between two checkpoints the writer has its own header and its own list of changes to the
PIPs; a page whose index is at most `lastPageOnDisk` is changed in its shadow copy, every other page
is changed in place.

`k` is `numElementsPerPage`, `m` is `NUM_PAGE_IDXS_PER_PIP`, and `alloc n` is the page that the page
allocator returns to the `n`-th call. An element is a value of type `V`.
-/

namespace Ladybug

/-- `PIP`.  `none` is `NULL_PAGE_IDX`. -/
structure PIP where
  nextPipPageIdx : Option ℕ
  pageIdxs : ℕ → Option ℕ

namespace PIP

def empty : PIP := ⟨none, fun _ => none⟩

def setPageIdx (offset pageIdx : ℕ) (pip : PIP) : PIP :=
  { pip with pageIdxs := Function.update pip.pageIdxs offset (some pageIdx) }

end PIP

structure PIPWrapper where
  pipPageIdx : ℕ
  pipContents : PIP

namespace PIPWrapper

def setPageIdx (offset pageIdx : ℕ) (pip : PIPWrapper) : PIPWrapper :=
  { pip with pipContents := pip.pipContents.setPageIdx offset pageIdx }

def setNextPipPageIdx (pageIdx : ℕ) (pip : PIPWrapper) : PIPWrapper :=
  { pip with pipContents := { pip.pipContents with nextPipPageIdx := some pageIdx } }

end PIPWrapper

structure PIPUpdates where
  updatedLastPIP : Option PIPWrapper
  newPIPs : List PIPWrapper

structure DiskArrayHeader where
  numElements : ℕ
  firstPIPPageIdx : Option ℕ

def DiskArrayHeader.getNumAPs (k : ℕ) (header : DiskArrayHeader) : ℕ :=
  (header.numElements + k - 1) / k

/-- The contents of a page.  A slot of an array page that was never written is `none`. -/
inductive Page (V : Type) where
  | array (slots : ℕ → Option V)
  | pip (contents : PIP)

namespace Page

variable {V : Type}

/-- A frame that was pinned without reading the page. -/
def blank : Page V := .array fun _ => none

def slot : Page V → ℕ → Option V
  | .array slots, i => slots i
  | .pip _, _ => none

def setSlot (i : ℕ) (v : V) (page : Page V) : Page V :=
  .array (Function.update page.slot i (some v))

end Page

/-! ### The shadow file -/

/-- `ShadowFile`: the number of the record of each shadowed page, and the records with the contents
of their shadow pages. -/
structure ShadowFile (V : Type) where
  shadowPagesMap : ℕ → Option ℕ
  shadowPageRecords : List (ℕ × Page V)

namespace ShadowFile

variable {V : Type}

def empty : ShadowFile V := ⟨fun _ => none, []⟩

/-- `createShadowVersionIfNecessaryAndPinPage`: the record of the shadow page of `originalPage`,
whose contents are `page`. -/
def createShadowVersionIfNecessary (sf : ShadowFile V) (originalPage : ℕ)
    (skipReadingOriginalPage : Bool) (page : Page V) : ℕ × ShadowFile V :=
  match sf.shadowPagesMap originalPage with
  | some record => (record, sf)
  | none =>
    (sf.shadowPageRecords.length,
      { shadowPagesMap := Function.update sf.shadowPagesMap originalPage
          (some sf.shadowPageRecords.length)
        shadowPageRecords := sf.shadowPageRecords ++
          [(originalPage, if skipReadingOriginalPage then .blank else page)] })

/-- Changes the shadow page of a record. -/
def modify (sf : ShadowFile V) (record : ℕ) (updateOp : Page V → Page V) : ShadowFile V :=
  { sf with
    shadowPageRecords := sf.shadowPageRecords.modify record fun r => (r.1, updateOp r.2) }

/-- `updatePage` of `ShadowUtils`. -/
def updatePage (sf : ShadowFile V) (originalPage : ℕ) (skipReadingOriginalPage : Bool)
    (page : Page V) (updateOp : Page V → Page V) : ShadowFile V :=
  let (record, sf) := sf.createShadowVersionIfNecessary originalPage skipReadingOriginalPage page
  sf.modify record updateOp

/-- `clearShadowPage`: the record stays. -/
def clearShadowPage (sf : ShadowFile V) (originalPage : ℕ) : ShadowFile V :=
  { sf with shadowPagesMap := Function.update sf.shadowPagesMap originalPage none }

/-- The contents of the shadow page of `originalPage`. -/
def shadowPage (sf : ShadowFile V) (originalPage : ℕ) : Option (Page V) :=
  (sf.shadowPagesMap originalPage).bind fun record =>
    sf.shadowPageRecords[record]?.map Prod.snd

/-- `applyShadowPages`: the shadow pages of all records are written to the file, in order. -/
def applyShadowPages (sf : ShadowFile V) (file : ℕ → Page V) : ℕ → Page V :=
  sf.shadowPageRecords.foldl (fun file r => Function.update file r.1 r.2) file

end ShadowFile

/-! ### The disk array -/

/-- The transaction types that a disk array tells apart. -/
inductive DiskArrayTrx where
  | readOnly
  | checkpoint
  deriving Repr, DecidableEq

/-- `DiskArrayInternal`, with the file it lies in.  `inPlaceWrites` are the pages that were pinned
in the file for writing since the last checkpoint.  A `lastPageOnDisk` of `none` is
`INVALID_PAGE_IDX`: shadowing is not bypassed. -/
structure DiskArray (V : Type) where
  file : ℕ → Page V
  inPlaceWrites : List ℕ
  shadowFile : ShadowFile V
  header : DiskArrayHeader
  headerForWriteTrx : DiskArrayHeader
  hasTransactionalUpdates : Bool
  pips : List PIPWrapper
  pipUpdates : PIPUpdates
  lastAPPageIdx : Option ℕ
  lastPageOnDisk : Option ℕ
  numAllocated : ℕ

namespace DiskArray

variable {V : Type} (k m : ℕ)

/-- A disk array without elements. -/
def new (file : ℕ → Page V) (bypassShadowing : Bool) : DiskArray V where
  file := file
  inPlaceWrites := []
  shadowFile := .empty
  header := ⟨0, none⟩
  headerForWriteTrx := ⟨0, none⟩
  hasTransactionalUpdates := false
  pips := []
  pipUpdates := ⟨none, []⟩
  lastAPPageIdx := none
  lastPageOnDisk := if bypassShadowing then some 0 else none
  numAllocated := 0

/-- `pageIdx <= lastPageOnDisk`: the page is written in its shadow copy. -/
def isShadowed (s : DiskArray V) (pageIdx : ℕ) : Bool :=
  match s.lastPageOnDisk with
  | none => true
  | some lastPageOnDisk => pageIdx ≤ lastPageOnDisk

/-- `hasPIPUpdatesNoLock`. -/
def hasPIPUpdates (s : DiskArray V) (pipIdx : ℕ) : Bool :=
  s.pips.length ≤ pipIdx || (pipIdx + 1 = s.pips.length && s.pipUpdates.updatedLastPIP.isSome)

/-- `getAPPageIdxNoLock`. -/
def getAPPageIdx (s : DiskArray V) (apIdx : ℕ) (trxType : DiskArrayTrx) : Option ℕ :=
  let pipIdx := apIdx / m
  let offsetInPIP := apIdx % m
  if trxType ≠ .checkpoint ∨ !s.hasPIPUpdates pipIdx then
    s.pips[pipIdx]?.bind (·.pipContents.pageIdxs offsetInPIP)
  else if pipIdx + 1 = s.pips.length ∧ s.pipUpdates.updatedLastPIP.isSome then
    s.pipUpdates.updatedLastPIP.bind (·.pipContents.pageIdxs offsetInPIP)
  else
    s.pipUpdates.newPIPs[pipIdx - s.pips.length]?.bind (·.pipContents.pageIdxs offsetInPIP)

def get (s : DiskArray V) (idx : ℕ) (trxType : DiskArrayTrx) : Option V := do
  let apPageIdx ← s.getAPPageIdx m (idx / k) trxType
  let file := (s.file apPageIdx).slot (idx % k)
  if trxType ≠ .checkpoint ∨ !s.hasTransactionalUpdates ∨ !s.isShadowed apPageIdx then
    file
  else
    match s.shadowFile.shadowPage apPageIdx with
    | none => file
    | some page => page.slot (idx % k)

/-- A pinned page: the shadow page of a record, or a page of the file. -/
inductive Frame where
  | shadow (record : ℕ)
  | original (pageIdx : ℕ)

def getPage (s : DiskArray V) (pageIdx : ℕ) (isNewlyAdded : Bool) : Frame × DiskArray V :=
  if s.isShadowed pageIdx then
    let (record, shadowFile) :=
      s.shadowFile.createShadowVersionIfNecessary pageIdx isNewlyAdded (s.file pageIdx)
    (.shadow record, { s with shadowFile })
  else
    (.original pageIdx,
      { s with
        file := Function.update s.file pageIdx
          (if isNewlyAdded then .blank else s.file pageIdx)
        inPlaceWrites := pageIdx :: s.inPlaceWrites })

/-- An assignment through a pinned page. -/
def writeFrame (s : DiskArray V) (slot : ℕ) (v : V) : Frame → DiskArray V
  | .shadow record => { s with shadowFile := s.shadowFile.modify record (Page.setSlot slot v) }
  | .original pageIdx =>
    { s with file := Function.update s.file pageIdx ((s.file pageIdx).setSlot slot v) }

def update (s : DiskArray V) (idx : ℕ) (v : V) : Option (DiskArray V) := do
  let s := { s with hasTransactionalUpdates := true }
  let apPageIdx ← s.getAPPageIdx m (idx / k) .checkpoint
  let (frame, s) := s.getPage apPageIdx false
  return s.writeFrame (idx % k) v frame

/-- `setNextPIPPageIDxOfPIPNoLock`, for the PIP `pipIdx` whose predecessor (or the header) is to
point to it. -/
def setNextPIPPageIdxOfPIP (s : DiskArray V) (pipIdx nextPIPPageIdx : ℕ) :
    Option (DiskArray V) :=
  match pipIdx with
  | 0 =>
    some { s with
      headerForWriteTrx := { s.headerForWriteTrx with firstPIPPageIdx := some nextPIPPageIdx } }
  | pipIdxOfPreviousPIP + 1 =>
    if s.pips.length = 0 then
      some { s with
        pipUpdates := { s.pipUpdates with
          newPIPs := s.pipUpdates.newPIPs.modify pipIdxOfPreviousPIP
            (PIPWrapper.setNextPipPageIdx nextPIPPageIdx) } }
    else do
      let updatedLastPIP ← s.pipUpdates.updatedLastPIP.or s.pips[pipIdxOfPreviousPIP]?
      if pipIdxOfPreviousPIP + 1 = s.pips.length then
        return { s with
          pipUpdates := { s.pipUpdates with
            updatedLastPIP := some (updatedLastPIP.setNextPipPageIdx nextPIPPageIdx) } }
      else
        return { s with
          pipUpdates := {
            updatedLastPIP := some updatedLastPIP
            newPIPs := s.pipUpdates.newPIPs.modify (pipIdxOfPreviousPIP - s.pips.length)
              (PIPWrapper.setNextPipPageIdx nextPIPPageIdx) } }

def allocatePage (alloc : ℕ → ℕ) (s : DiskArray V) : ℕ × DiskArray V :=
  (alloc s.numAllocated, { s with numAllocated := s.numAllocated + 1 })

/-- Adds the array page `newAPPageIdx` to its PIP. -/
def addAPToPIP (alloc : ℕ → ℕ) (s : DiskArray V) (apIdx newAPPageIdx : ℕ) :
    Option (DiskArray V) :=
  let pipIdx := apIdx / m
  let offsetOfNewAPInPIP := apIdx % m
  if pipIdx < s.pips.length then do
    let updatedLastPIP ← s.pipUpdates.updatedLastPIP.or s.pips[pipIdx]?
    return { s with
      pipUpdates := { s.pipUpdates with
        updatedLastPIP := some (updatedLastPIP.setPageIdx offsetOfNewAPInPIP newAPPageIdx) } }
  else if pipIdx - s.pips.length < s.pipUpdates.newPIPs.length then
    some { s with
      pipUpdates := { s.pipUpdates with
        newPIPs := s.pipUpdates.newPIPs.modify (pipIdx - s.pips.length)
          (PIPWrapper.setPageIdx offsetOfNewAPInPIP newAPPageIdx) } }
  else do
    let (pipPageIdx, s) := s.allocatePage alloc
    let s := { s with
      pipUpdates := { s.pipUpdates with
        newPIPs := s.pipUpdates.newPIPs ++ [PIPWrapper.mk pipPageIdx .empty] } }
    let s ← s.setNextPIPPageIdxOfPIP pipIdx pipPageIdx
    return { s with
      pipUpdates := { s.pipUpdates with
        newPIPs := s.pipUpdates.newPIPs.modify (s.pipUpdates.newPIPs.length - 1)
          (PIPWrapper.setPageIdx offsetOfNewAPInPIP newAPPageIdx) } }

/-- `getAPPageIdxAndAddAPToPIPIfNecessaryForWriteTrxNoLock`. -/
def getAPPageIdxAndAddAPToPIPIfNecessary (alloc : ℕ → ℕ) (s : DiskArray V) (apIdx : ℕ) :
    Option ((ℕ × Bool) × DiskArray V) :=
  match s.lastAPPageIdx, decide (apIdx + 1 = s.headerForWriteTrx.getNumAPs k) with
  | some lastAPPageIdx, true => some ((lastAPPageIdx, false), s)
  | _, _ =>
    if apIdx < s.headerForWriteTrx.getNumAPs k then do
      let apPageIdx ← s.getAPPageIdx m apIdx .checkpoint
      return ((apPageIdx, false), s)
    else do
      let (newAPPageIdx, s) := s.allocatePage alloc
      let s ← s.addAPToPIP m alloc apIdx newAPPageIdx
      return ((newAPPageIdx, true), s)

/-- `WriteIterator`: the array page under the cursor, pinned. -/
structure WriteIterator where
  apIdx : Option ℕ
  frame : Option Frame

/-- `iter_mut`. -/
def iterMut (s : DiskArray V) : WriteIterator × DiskArray V :=
  (⟨none, none⟩, { s with hasTransactionalUpdates := true })

/-- `WriteIterator::seek`, and the assignment of a value to the element there. -/
def seekAndWrite (it : WriteIterator) (s : DiskArray V) (newIdx : ℕ) (v : V) :
    Option (WriteIterator × DiskArray V) := do
  let (frame, s) ←
    if it.apIdx = some (newIdx / k) then
      it.frame.map fun frame => (frame, s)
    else
      (s.getAPPageIdx m (newIdx / k) .checkpoint).map fun apPageIdx => s.getPage apPageIdx false
  return (⟨some (newIdx / k), some frame⟩, s.writeFrame (newIdx % k) v frame)

def pushBack (alloc : ℕ → ℕ) (it : WriteIterator) (s : DiskArray V) (v : V) :
    Option (WriteIterator × DiskArray V) := do
  let idx := s.headerForWriteTrx.numElements
  let ((apPageIdx, isNewlyAdded), s) ← s.getAPPageIdxAndAddAPToPIPIfNecessary k m alloc (idx / k)
  let s := { s with
    lastAPPageIdx := some apPageIdx
    headerForWriteTrx := { s.headerForWriteTrx with numElements := idx + 1 } }
  let (frame, s) :=
    match it.frame, isNewlyAdded || it.apIdx ≠ some (idx / k) with
    | some frame, false => (frame, s)
    | _, _ => s.getPage apPageIdx isNewlyAdded
  return (⟨some (idx / k), some frame⟩, s.writeFrame (idx % k) v frame)

/-- What is done through one iterator. -/
inductive IteratorWrite (V : Type) where
  | pushBack (v : V)
  | seek (idx : ℕ) (v : V)

def iteratorStep (alloc : ℕ → ℕ) (p : WriteIterator × DiskArray V) :
    IteratorWrite V → Option (WriteIterator × DiskArray V)
  | .pushBack v => pushBack k m alloc p.1 p.2 v
  | .seek idx v => seekAndWrite k m p.1 p.2 idx v

/-- A sequence of writes through one iterator. -/
def write (alloc : ℕ → ℕ) (s : DiskArray V) (ws : List (IteratorWrite V)) :
    Option (DiskArray V) :=
  (ws.foldlM (iteratorStep k m alloc) s.iterMut).map Prod.snd

def resize (alloc : ℕ → ℕ) (s : DiskArray V) (newNumElements : ℕ) (defaultVal : V) :
    Option (DiskArray V) :=
  s.write k m alloc
    (List.replicate (newNumElements - s.headerForWriteTrx.numElements) (.pushBack defaultVal))

/-! ### Checkpoint and rollback -/

def updateLastPageOnDisk (s : DiskArray V) : Option (DiskArray V) :=
  if s.header.numElements = 0 then
    some { s with lastPageOnDisk := some 0 }
  else do
    let lastPageOnDisk ← s.getAPPageIdx m ((s.header.numElements - 1) / k) .readOnly
    return { s with lastPageOnDisk := some lastPageOnDisk }

/-- The PIPs that the constructor reads, at most `fuel` of them. -/
def readPIPs (file : ℕ → Page V) : ℕ → Option ℕ → Option (List PIPWrapper)
  | _, none => some []
  | 0, some _ => none
  | fuel + 1, some pipPageIdx =>
    match file pipPageIdx with
    | .pip pipContents =>
      (readPIPs file fuel pipContents.nextPipPageIdx).map (⟨pipPageIdx, pipContents⟩ :: ·)
    | .array _ => none

/-- The constructor, for an array that lies in the file.  The allocator has returned `numAllocated`
pages so far. -/
def load (file : ℕ → Page V) (header : DiskArrayHeader) (bypassShadowing : Bool)
    (fuel numAllocated : ℕ) : Option (DiskArray V) := do
  let pips ← readPIPs file fuel header.firstPIPPageIdx
  let s := { new file false with header, headerForWriteTrx := header, pips, numAllocated }
  if bypassShadowing then s.updateLastPageOnDisk k m else some s

/-- `checkpoint`: the changed PIPs go to the shadow file. -/
def checkpoint (s : DiskArray V) : DiskArray V :=
  { s with
    shadowFile := (s.pipUpdates.updatedLastPIP.toList ++ s.pipUpdates.newPIPs).foldl
      (fun sf pip => sf.updatePage pip.pipPageIdx true (s.file pip.pipPageIdx)
        fun _ => .pip pip.pipContents) s.shadowFile }

/-- The PIPs once their changes are part of them. -/
def checkpointedPIPs (s : DiskArray V) : List PIPWrapper :=
  (match s.pipUpdates.updatedLastPIP with
    | some pip => s.pips.dropLast ++ [pip]
    | none => s.pips) ++ s.pipUpdates.newPIPs

/-- The pages of the PIPs that are changed or new. -/
def updatedPIPPages (s : DiskArray V) : List ℕ :=
  (match s.pipUpdates.updatedLastPIP with
    | some _ => (s.pips.getLast?.map PIPWrapper.pipPageIdx).toList
    | none => []) ++ s.pipUpdates.newPIPs.map PIPWrapper.pipPageIdx

/-- `checkpointOrRollbackInMemoryIfNecessaryNoLock`. -/
def checkpointOrRollbackInMemoryIfNecessary (s : DiskArray V) (isCheckpoint : Bool) :
    Option (DiskArray V) :=
  if !s.hasTransactionalUpdates then
    some s
  else
    let s := { s with
      pips := if isCheckpoint then s.checkpointedPIPs else s.pips
      shadowFile := s.updatedPIPPages.foldl ShadowFile.clearShadowPage s.shadowFile
      pipUpdates := ⟨none, []⟩
      hasTransactionalUpdates := false }
    if isCheckpoint ∧ s.lastPageOnDisk.isSome then s.updateLastPageOnDisk k m else some s

/-- A checkpoint of the owner of the disk array (`PrimaryKeyIndex::checkpoint`): the headers are
exchanged after the disk array has looked at them. -/
def checkpointIndex (s : DiskArray V) : Option (DiskArray V) := do
  let s ← s.checkpoint.checkpointOrRollbackInMemoryIfNecessary k m true
  return { s with header := s.headerForWriteTrx }

/-- The end of the checkpoint of the database: the shadow pages are written to the file. -/
def applyShadowPages (s : DiskArray V) : DiskArray V :=
  { s with
    file := s.shadowFile.applyShadowPages s.file
    shadowFile := .empty
    inPlaceWrites := [] }

/-- A checkpoint that succeeds. -/
def checkpointAll (s : DiskArray V) : Option (DiskArray V) := do
  let s ← s.checkpointIndex k m
  return s.applyShadowPages

/-- The rollback of a checkpoint (`PrimaryKeyIndex::rollbackCheckpoint`). -/
def rollbackAll (s : DiskArray V) : Option (DiskArray V) := do
  let s ← s.checkpointOrRollbackInMemoryIfNecessary k m false
  return { s with headerForWriteTrx := s.header }

/-- What the checkpoint of the database has done with a disk array before it fails: it has written
elements, it has called `checkpoint`, or the checkpoint of the owner is complete. -/
inductive CheckpointStage where
  | writing
  | checkpoint
  | checkpointInMemory
  deriving Repr, DecidableEq

/-- A checkpoint of the database that fails and is rolled back. -/
def failedCheckpoint (s : DiskArray V) : CheckpointStage → Option (DiskArray V)
  | .writing => s.rollbackAll k m
  | .checkpoint => s.checkpoint.rollbackAll k m
  | .checkpointInMemory => do
    let s ← s.checkpointIndex k m
    s.rollbackAll k m

/-- What the owner of a disk array does with it. -/
inductive Action (V : Type) where
  | write (ws : List (IteratorWrite V))
  | update (idx : ℕ) (v : V)
  | resize (newNumElements : ℕ) (defaultVal : V)
  | checkpoint
  | rollback (stage : CheckpointStage)

def step (alloc : ℕ → ℕ) (s : DiskArray V) : Action V → Option (DiskArray V)
  | .write ws => s.write k m alloc ws
  | .update idx v => s.update k m idx v
  | .resize newNumElements defaultVal => s.resize k m alloc newNumElements defaultVal
  | .checkpoint => s.checkpointAll k m
  | .rollback stage => s.failedCheckpoint k m stage

def run (alloc : ℕ → ℕ) (s : DiskArray V) (as : List (Action V)) : Option (DiskArray V) :=
  as.foldlM (step k m alloc) s

end DiskArray

end Ladybug
