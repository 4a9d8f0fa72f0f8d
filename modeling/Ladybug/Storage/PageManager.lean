import Ladybug.Lib.Fold

/-!
# The pages of the data file

`FreeSpaceManager` keeps the free page ranges: those that can be handed out again, by size, and
those that were freed since the last checkpoint, which that checkpoint may still use. `PageManager`
takes ranges from it or from the end of the file, and an `OptimisticAllocator` remembers what a
transaction allocated, so that a rollback can free it.

`PageSystem` runs them together with the owners: a list of the ranges that were handed out. Page
indexes are natural numbers, and an operation is `none` when an assertion of the code fails.
-/

namespace Ladybug

structure PageRange where
  startPageIdx : ℕ
  numPages : ℕ
  deriving Repr, DecidableEq

/-- The first page behind the range. -/
def PageRange.stop (r : PageRange) : ℕ := r.startPageIdx + r.numPages

/-! ### The free space manager -/

def entryCmp (a b : PageRange) : Bool :=
  if a.numPages = b.numPages then a.startPageIdx < b.startPageIdx else a.numPages < b.numPages

/-- `sorted_free_list_t`, a `std::set` ordered by `entryCmp`: its elements in order. -/
abbrev SortedFreeList := List PageRange

namespace SortedFreeList

/-- `insert` of the set. -/
def insert (entry : PageRange) : SortedFreeList → SortedFreeList
  | [] => [entry]
  | x :: xs =>
    if entryCmp entry x then entry :: x :: xs
    else if entryCmp x entry then x :: insert entry xs
    else x :: xs

/-- `lower_bound` and, if it finds an entry, `erase`: the entry and what is left. -/
def popLowerBound (bound : PageRange) : SortedFreeList → Option (PageRange × SortedFreeList)
  | [] => none
  | x :: xs =>
    if entryCmp x bound then (popLowerBound bound xs).map fun (entry, xs) => (entry, x :: xs)
    else some (x, xs)

end SortedFreeList

structure FreeSpaceManager where
  freeLists : List SortedFreeList := []
  uncheckpointedFreePageRanges : List PageRange := []
  numEntries : ℕ := 0
  deriving Repr, DecidableEq

namespace FreeSpaceManager

/-- `getLevel`: the exponent of `std::bit_floor(numPages)`. -/
def getLevel (numPages : ℕ) : ℕ := Nat.log2 numPages

/-- `getFreeList`, which adds empty lists when there are not enough of them, and a change of the
list that it returns. -/
def modifyFreeList (f : SortedFreeList → SortedFreeList) :
    List SortedFreeList → ℕ → List SortedFreeList
  | [], 0 => [f []]
  | [], level + 1 => [] :: modifyFreeList f [] level
  | l :: ls, 0 => f l :: ls
  | l :: ls, level + 1 => l :: modifyFreeList f ls level

def addFreePages (fsm : FreeSpaceManager) (entry : PageRange) : Option FreeSpaceManager :=
  if entry.numPages > 0 ∧ entry ∉ fsm.freeLists.getD (getLevel entry.numPages) [] then
    some { fsm with
      freeLists := modifyFreeList (SortedFreeList.insert entry) fsm.freeLists
        (getLevel entry.numPages)
      numEntries := fsm.numEntries + 1 }
  else none

def addUncheckpointedFreePages (fsm : FreeSpaceManager) (entry : PageRange) : FreeSpaceManager :=
  { fsm with uncheckpointedFreePageRanges := fsm.uncheckpointedFreePageRanges ++ [entry] }

def rollbackCheckpoint (fsm : FreeSpaceManager) : FreeSpaceManager :=
  { fsm with uncheckpointedFreePageRanges := [] }

/-- The loop of `popFreePages`, from the list of the level `levelToSearch` on. -/
def searchFreeLists (numPages : ℕ) :
    List SortedFreeList → ℕ → Option (PageRange × List SortedFreeList)
  | [], _ => none
  | l :: ls, levelToSearch + 1 =>
    (searchFreeLists numPages ls levelToSearch).map fun (entry, ls) => (entry, l :: ls)
  | l :: ls, 0 =>
    match SortedFreeList.popLowerBound ⟨0, numPages⟩ l with
    | some (entry, l) => some (entry, l :: ls)
    | none => (searchFreeLists numPages ls 0).map fun (entry, ls) => (entry, l :: ls)

def splitPageRange (fsm : FreeSpaceManager) (chunk : PageRange) (numRequiredPages : ℕ) :
    Option (PageRange × FreeSpaceManager) :=
  let ret : PageRange := ⟨chunk.startPageIdx, numRequiredPages⟩
  if chunk.numPages < numRequiredPages then none
  else if numRequiredPages < chunk.numPages then
    (fsm.addFreePages ⟨chunk.startPageIdx + numRequiredPages,
      chunk.numPages - numRequiredPages⟩).map fun fsm => (ret, fsm)
  else some (ret, fsm)

def popFreePages (fsm : FreeSpaceManager) (numPages : ℕ) :
    Option (Option PageRange × FreeSpaceManager) :=
  if numPages > 0 then
    match searchFreeLists numPages fsm.freeLists (getLevel numPages) with
    | some (entry, freeLists) =>
      ({ fsm with freeLists := freeLists, numEntries := fsm.numEntries - 1 }.splitPageRange entry
        numPages).map fun (range, fsm) => (some range, fsm)
    | none => some (none, fsm)
  else some (none, fsm)

/-- The loop of `mergePageRanges`, with the range `prevEntry` that may still grow. -/
def mergeLoop : List PageRange → PageRange → FreeSpaceManager →
    Option (PageRange × FreeSpaceManager)
  | [], prevEntry, fsm => some (prevEntry, fsm)
  | entry :: entries, prevEntry, fsm =>
    if prevEntry.startPageIdx + prevEntry.numPages > entry.startPageIdx then none
    else if prevEntry.startPageIdx + prevEntry.numPages = entry.startPageIdx then
      mergeLoop entries { prevEntry with numPages := prevEntry.numPages + entry.numPages } fsm
    else do
      let fsm ← fsm.addFreePages prevEntry
      mergeLoop entries entry fsm

/-- `handleLastPageRange`, with the number of pages of the file before and after. -/
def handleLastPageRange (fsm : FreeSpaceManager) (pageRange : PageRange) (fileNumPages : ℕ) :
    Option (FreeSpaceManager × ℕ) :=
  if pageRange.startPageIdx + pageRange.numPages = fileNumPages then
    some (fsm, if fileNumPages ≤ pageRange.startPageIdx then fileNumPages
      else pageRange.startPageIdx)
  else (fsm.addFreePages pageRange).map fun fsm => (fsm, fileNumPages)

/-- `mergePageRanges`.  `std::sort` compares the first pages. -/
def mergePageRanges (fsm : FreeSpaceManager) (newInitialEntries : List PageRange)
    (fileNumPages : ℕ) : Option (FreeSpaceManager × ℕ) :=
  let allEntries := newInitialEntries ++ fsm.freeLists.flatten
  match allEntries.mergeSort fun a b => a.startPageIdx ≤ b.startPageIdx with
  | [] => some (fsm, fileNumPages)
  | prevEntry :: entries => do
    -- `resetFreeLists`
    let (last, fsm) ← mergeLoop entries prevEntry { fsm with freeLists := [], numEntries := 0 }
    fsm.handleLastPageRange last fileNumPages

def finalizeCheckpoint (fsm : FreeSpaceManager) (fileNumPages : ℕ) :
    Option (FreeSpaceManager × ℕ) :=
  ({ fsm with uncheckpointedFreePageRanges := [] }.mergePageRanges
    fsm.uncheckpointedFreePageRanges fileNumPages)

end FreeSpaceManager

/-! ### The page manager -/

/-- `PageManager`, with the number of pages of its file. -/
structure PageManager where
  freeSpaceManager : FreeSpaceManager := {}
  numPages : ℕ := 0
  version : ℕ := 0
  deriving Repr, DecidableEq

namespace PageManager

def allocatePageRange (pm : PageManager) (numPages : ℕ) : Option (PageRange × PageManager) := do
  let (allocatedFreeChunk, fsm) ← pm.freeSpaceManager.popFreePages numPages
  match allocatedFreeChunk with
  | some range => return (range, { pm with freeSpaceManager := fsm, version := pm.version + 1 })
  | none =>
    -- `addNewPages`
    return (⟨pm.numPages, numPages⟩,
      { pm with freeSpaceManager := fsm, numPages := pm.numPages + numPages })

def freePageRange (pm : PageManager) (entry : PageRange) : PageManager :=
  { pm with
    freeSpaceManager := pm.freeSpaceManager.addUncheckpointedFreePages entry
    version := pm.version + 1 }

def freeImmediatelyRewritablePageRange (pm : PageManager) (entry : PageRange) :
    Option PageManager :=
  (pm.freeSpaceManager.addFreePages entry).map fun fsm =>
    { pm with freeSpaceManager := fsm, version := pm.version + 1 }

def finalizeCheckpoint (pm : PageManager) : Option PageManager :=
  (pm.freeSpaceManager.finalizeCheckpoint pm.numPages).map fun (fsm, numPages) =>
    { pm with freeSpaceManager := fsm, numPages := numPages }

def rollbackCheckpoint (pm : PageManager) : PageManager :=
  { pm with freeSpaceManager := pm.freeSpaceManager.rollbackCheckpoint }

/-- `deserialize`, for a file with `numPages` pages: the entries are added one by one. -/
def deserialize (numPages : ℕ) (entries : List PageRange) : Option PageManager :=
  (entries.foldlM FreeSpaceManager.addFreePages {}).map fun fsm =>
    { freeSpaceManager := fsm, numPages := numPages }

end PageManager

structure OptimisticAllocator where
  optimisticallyAllocatedPages : List PageRange := []
  deriving Repr, DecidableEq

namespace OptimisticAllocator

def allocatePageRange (allocator : OptimisticAllocator) (pm : PageManager) (numPages : ℕ) :
    Option (PageRange × OptimisticAllocator × PageManager) := do
  let (pageRange, pm) ← pm.allocatePageRange numPages
  if numPages > 0 then
    return (pageRange, ⟨allocator.optimisticallyAllocatedPages ++ [pageRange]⟩, pm)
  else return (pageRange, allocator, pm)

def rollback (allocator : OptimisticAllocator) (pm : PageManager) :
    Option (OptimisticAllocator × PageManager) :=
  (allocator.optimisticallyAllocatedPages.foldlM
    PageManager.freeImmediatelyRewritablePageRange pm).map fun pm => ({}, pm)

def commit (_ : OptimisticAllocator) : OptimisticAllocator := {}

end OptimisticAllocator

/-! ### Owners -/

/-- What is done with the pages of the file. -/
inductive PageAction where
  | allocatePageRange (numPages : ℕ)
  /-- an owner frees a part of a range that it holds -/
  | freePageRange (owned entry : PageRange)
  | freeImmediatelyRewritablePageRange (owned entry : PageRange)
  | addOptimisticAllocator
  | allocateOptimistically (allocator numPages : ℕ)
  | commit (allocator : ℕ)
  | rollback (allocator : ℕ)
  | finalizeCheckpoint
  | rollbackCheckpoint
  deriving Repr, DecidableEq

/-- The page manager, the optimistic allocators of the transactions, and the ranges that were handed
out and are not in the list of an optimistic allocator. -/
structure PageSystem where
  pageManager : PageManager
  optimisticAllocators : List OptimisticAllocator := []
  owned : List PageRange := []
  deriving Repr, DecidableEq

namespace PageSystem

/-- What is left of the ranges in hand when a part of one of them is given up. -/
def release (owned : List PageRange) (range entry : PageRange) : List PageRange :=
  ⟨range.startPageIdx, entry.startPageIdx - range.startPageIdx⟩ ::
    ⟨entry.stop, range.stop - entry.stop⟩ :: owned.erase range

def step (s : PageSystem) : PageAction → Option PageSystem
  | .allocatePageRange numPages => do
    let (range, pm) ← s.pageManager.allocatePageRange numPages
    return { s with pageManager := pm, owned := range :: s.owned }
  | .freePageRange range entry =>
    some { s with
      pageManager := s.pageManager.freePageRange entry
      owned := release s.owned range entry }
  | .freeImmediatelyRewritablePageRange range entry => do
    let pm ← s.pageManager.freeImmediatelyRewritablePageRange entry
    return { s with pageManager := pm, owned := release s.owned range entry }
  | .addOptimisticAllocator =>
    some { s with optimisticAllocators := s.optimisticAllocators ++ [{}] }
  | .allocateOptimistically i numPages => do
    let allocator ← s.optimisticAllocators[i]?
    let (range, allocator, pm) ← allocator.allocatePageRange s.pageManager numPages
    return { s with
      pageManager := pm
      optimisticAllocators := s.optimisticAllocators.set i allocator
      -- an empty range is in nobody's list
      owned := if numPages > 0 then s.owned else range :: s.owned }
  | .commit i => do
    let allocator ← s.optimisticAllocators[i]?
    return { s with
      optimisticAllocators := s.optimisticAllocators.set i allocator.commit
      owned := allocator.optimisticallyAllocatedPages ++ s.owned }
  | .rollback i => do
    let allocator ← s.optimisticAllocators[i]?
    let (allocator, pm) ← allocator.rollback s.pageManager
    return { s with
      pageManager := pm
      optimisticAllocators := s.optimisticAllocators.set i allocator }
  | .finalizeCheckpoint =>
    s.pageManager.finalizeCheckpoint.map fun pm => { s with pageManager := pm }
  | .rollbackCheckpoint =>
    -- the last checkpoint still uses what was freed since then
    some { s with
      pageManager := s.pageManager.rollbackCheckpoint
      owned := s.pageManager.freeSpaceManager.uncheckpointedFreePageRanges ++ s.owned }

/-- What the callers promise: they free parts, not empty ones, of ranges that they hold. -/
def Allowed (s : PageSystem) : PageAction → Prop
  | .freePageRange range entry | .freeImmediatelyRewritablePageRange range entry =>
    range ∈ s.owned ∧ 0 < entry.numPages ∧ range.startPageIdx ≤ entry.startPageIdx ∧
      entry.stop ≤ range.stop
  | .allocateOptimistically i _ | .commit i | .rollback i => i < s.optimisticAllocators.length
  | .allocatePageRange _ | .addOptimisticAllocator | .finalizeCheckpoint | .rollbackCheckpoint =>
    True

/-- The ranges that can be handed out again. -/
def free (s : PageSystem) : List PageRange := s.pageManager.freeSpaceManager.freeLists.flatten

/-- The ranges that were freed since the last checkpoint. -/
def uncheckpointed (s : PageSystem) : List PageRange :=
  s.pageManager.freeSpaceManager.uncheckpointedFreePageRanges

def held (s : PageSystem) : List PageRange :=
  s.owned ++ s.optimisticAllocators.flatMap (·.optimisticallyAllocatedPages)

end PageSystem

end Ladybug
