import Ladybug.Storage.SelectionVector
import Ladybug.Transaction.TransactionManager

/-!
# Version information of the rows of a chunked node group

`VectorVersionInfo` keeps the insertion and deletion versions of one vector of rows, in an array
per kind or in a compressed state: no insertion, always inserted, all rows inserted by one
transaction, no deletion. `VersionInfo` is the list of vectors, each of which may be absent.

`cap` is `DEFAULT_VECTOR_CAPACITY`. Functions that read through a pointer return `none` when it
is null or when a `KU_ASSERT` on the way fails.
-/

namespace Ladybug

inductive InsertionStatus where
  | noInserted
  | checkVersion
  | alwaysInserted
  deriving Repr, DecidableEq

inductive DeletionStatus where
  | noDeleted
  | checkVersion
  deriving Repr, DecidableEq

/-- The entry of a version array; the array of `cap` entries is only read below `cap`. -/
def versionAt {cap : ℕ} (a : Vector ℕ cap) (row : ℕ) : ℕ :=
  a[row]?.getD invalidTransaction

/-- Writes `version` to the entries `startRow, …, startRow + numRows - 1`. -/
def fillVersions {cap : ℕ} (a : Vector ℕ cap) (startRow version : ℕ) : ℕ → Vector ℕ cap
  | 0 => a
  | numRows + 1 =>
    (fillVersions a startRow version numRows).setIfInBounds (startRow + numRows) version

/-- An array filled with `INVALID_TRANSACTION`. -/
def initVersionArray (cap : ℕ) : Vector ℕ cap := Vector.replicate cap invalidTransaction

structure VectorVersionInfo (cap : ℕ) where
  insertedVersions : Option (Vector ℕ cap) := none
  deletedVersions : Option (Vector ℕ cap) := none
  sameInsertionVersion : ℕ := invalidTransaction
  sameDeletionVersion : ℕ := invalidTransaction
  insertionStatus : InsertionStatus := .noInserted
  deletionStatus : DeletionStatus := .noDeleted
  deriving Repr, DecidableEq

namespace VectorVersionInfo

variable {cap : ℕ}

def isSameInsertionVersion (vv : VectorVersionInfo cap) : Bool :=
  vv.sameInsertionVersion != invalidTransaction

def isSameDeletionVersion (vv : VectorVersionInfo cap) : Bool :=
  vv.sameDeletionVersion != invalidTransaction

/-- The second half of `append`: writes the rows of one transaction into the array, whose
entries have to be free. -/
def appendToArray (vv : VectorVersionInfo cap) (a : Vector ℕ cap)
    (transactionID startRow numRows : ℕ) : Option (VectorVersionInfo cap) :=
  if ∀ i < numRows, versionAt a (startRow + i) = invalidTransaction then
    some { vv with insertedVersions := some (fillVersions a startRow transactionID numRows) }
  else none

def append (vv : VectorVersionInfo cap) (transactionID startRow numRows : ℕ) :
    Option (VectorVersionInfo cap) :=
  let vv := { vv with insertionStatus := .checkVersion }
  if transactionID = vv.sameInsertionVersion then
    some vv
  else
    match vv.insertedVersions with
    | some a => vv.appendToArray a transactionID startRow numRows
    | none =>
      if !vv.isSameInsertionVersion then
        -- no insertions before, and no need to allocate the array
        some { vv with sameInsertionVersion := transactionID }
      else
        let a := fillVersions (initVersionArray cap) 0 vv.sameInsertionVersion startRow
        { vv with sameInsertionVersion := invalidTransaction }.appendToArray a
          transactionID startRow numRows

/-- The message of the exception that `delete_` throws. -/
def deleteConflict : String :=
  "Write-write conflict: deleting a row that is already deleted by another transaction."

/-- `delete_`: the new state, and the result or the message of the exception. -/
def delete_ (vv : VectorVersionInfo cap) (transactionID rowIdx : ℕ) :
    VectorVersionInfo cap × Except String Bool :=
  let vv := { vv with deletionStatus := .checkVersion }
  if transactionID = vv.sameDeletionVersion then
    (vv, .ok false)
  else if vv.isSameDeletionVersion then
    (vv, .error deleteConflict)
  else
    let a := vv.deletedVersions.getD (initVersionArray cap)
    let vv := { vv with deletedVersions := some a }
    if versionAt a rowIdx = transactionID then
      (vv, .ok false)
    else if versionAt a rowIdx ≠ invalidTransaction then
      (vv, .error deleteConflict)
    else
      ({ vv with deletedVersions := some (a.setIfInBounds rowIdx transactionID) }, .ok true)

def setInsertCommitTS (vv : VectorVersionInfo cap) (commitTS startRow numRows : ℕ) :
    Option (VectorVersionInfo cap) :=
  if vv.isSameInsertionVersion then
    some { vv with sameInsertionVersion := commitTS }
  else
    vv.insertedVersions.map fun a =>
      { vv with insertedVersions := some (fillVersions a startRow commitTS numRows) }

def setDeleteCommitTS (vv : VectorVersionInfo cap) (commitTS startRow numRows : ℕ) :
    Option (VectorVersionInfo cap) :=
  if vv.isSameDeletionVersion then
    some { vv with sameDeletionVersion := commitTS }
  else
    vv.deletedVersions.map fun a =>
      { vv with deletedVersions := some (fillVersions a startRow commitTS numRows) }

def isDeleted (vv : VectorVersionInfo cap) (startTS transactionID rowIdx : ℕ) : Option Bool :=
  match vv.deletionStatus with
  | .noDeleted => some false
  | .checkVersion => do
    let deletion ← if vv.isSameDeletionVersion then some vv.sameDeletionVersion
      else vv.deletedVersions.map (versionAt · rowIdx)
    return decide (deletion = transactionID) || decide (deletion ≤ startTS)

def isInserted (vv : VectorVersionInfo cap) (startTS transactionID rowIdx : ℕ) : Option Bool :=
  match vv.insertionStatus with
  | .alwaysInserted => some true
  | .noInserted => some false
  | .checkVersion => do
    let insertion ← if vv.isSameInsertionVersion then some vv.sameInsertionVersion
      else vv.insertedVersions.map (versionAt · rowIdx)
    return decide (insertion = transactionID) || decide (insertion ≤ startTS)

/-- `isInserted(…) && !isDeleted(…)`. -/
def isInsertedNotDeleted (vv : VectorVersionInfo cap) (startTS transactionID rowIdx : ℕ) :
    Option Bool := do
  if ← vv.isInserted startTS transactionID rowIdx then
    return !(← vv.isDeleted startTS transactionID rowIdx)
  else
    return false

def isSelected (vv : VectorVersionInfo cap) (startTS transactionID rowIdx : ℕ) : Option Bool :=
  if vv.deletionStatus = .noDeleted ∧ vv.insertionStatus = .alwaysInserted then
    some true
  else if vv.insertionStatus = .noInserted then
    some false
  else
    vv.isInsertedNotDeleted startTS transactionID rowIdx

def getSelVectorForScan (vv : VectorVersionInfo cap) (startTS transactionID : ℕ)
    (selVector : SelectionVector) (startRow numRows startOutputPos : ℕ) :
    Option SelectionVector :=
  if vv.deletionStatus = .noDeleted ∧ vv.insertionStatus = .alwaysInserted then
    if selVector.isUnfiltered then
      some (selVector.setSelSize (selVector.selectedSize + numRows))
    else
      some ((List.range numRows).foldl
        (fun sv i => sv.pushPosition (startOutputPos + i)) selVector).setToFiltered
  else if vv.insertionStatus ≠ .noInserted then do
    -- an unfiltered vector may have a size and a buffer with arbitrary contents
    let selVector := if selVector.isUnfiltered then selVector.makeDynamic else selVector
    let selVector ← (List.range numRows).foldlM
      (fun sv i => do
        if ← vv.isInsertedNotDeleted startTS transactionID (startRow + i) then
          return sv.pushPosition (startOutputPos + i)
        else
          return sv) selVector
    return selVector.setToFiltered
  else
    some selVector

def rollbackInsertions (vv : VectorVersionInfo cap) (startRowInVector numRows : ℕ) :
    VectorVersionInfo cap :=
  let vv :=
    if vv.isSameInsertionVersion then
      { vv with sameInsertionVersion := invalidTransaction }
    else
      match vv.insertedVersions with
      | none => vv
      | some a =>
        let a := fillVersions a startRowInVector invalidTransaction numRows
        if a.any (· != invalidTransaction) then { vv with insertedVersions := some a }
        else { vv with insertedVersions := none }
  if vv.insertedVersions.isNone then
    { vv with insertionStatus := .noInserted, deletionStatus := .noDeleted }
  else vv

def rollbackDeletions (vv : VectorVersionInfo cap) (startRowInVector numRows : ℕ) :
    VectorVersionInfo cap :=
  let vv :=
    if vv.isSameDeletionVersion then
      { vv with sameDeletionVersion := invalidTransaction }
    else
      match vv.deletedVersions with
      | none => vv
      | some a =>
        let a := fillVersions a startRowInVector invalidTransaction numRows
        if a.any (· != invalidTransaction) then { vv with deletedVersions := some a }
        else { vv with deletedVersions := none }
  if vv.deletedVersions.isNone then { vv with deletionStatus := .noDeleted } else vv

end VectorVersionInfo

/-- `VersionInfo`: a vector of version information may be absent (`nullptr`). -/
structure VersionInfo (cap : ℕ) where
  vectorsInfo : List (Option (VectorVersionInfo cap)) := []
  deriving Repr, DecidableEq

/-- The loop header of every operation on a range of rows: for each vector that the range
meets its index, the first row inside it and the number of rows inside it. -/
def vectorSegments (cap startRow numRows : ℕ) : List (ℕ × ℕ × ℕ) :=
  let startVectorIdx := startRow / cap
  let startRowIdxInVector := startRow % cap
  let endVectorIdx := (startRow + numRows - 1) / cap
  let endRowIdxInVector := (startRow + numRows - 1) % cap
  (List.range' startVectorIdx (endVectorIdx + 1 - startVectorIdx)).map fun vectorIdx =>
    let startRowIdx := if vectorIdx = startVectorIdx then startRowIdxInVector else 0
    let endRowIdx := if vectorIdx = endVectorIdx then endRowIdxInVector else cap - 1
    (vectorIdx, startRowIdx, endRowIdx - startRowIdx + 1)

namespace VersionInfo

variable {cap : ℕ}

def getVectorVersionInfo (vi : VersionInfo cap) (vectorIdx : ℕ) :
    Option (VectorVersionInfo cap) :=
  vi.vectorsInfo[vectorIdx]?.join

/-- `getOrCreateVersionInfo`: the vector that the reference it returns points to. -/
def getOrCreateVersionInfo (vi : VersionInfo cap) (vectorIdx : ℕ) : VectorVersionInfo cap :=
  (vi.getVectorVersionInfo vectorIdx).getD {}

/-- Writes through the reference of `getOrCreateVersionInfo`, which has resized the list. -/
def setVectorVersionInfo (vi : VersionInfo cap) (vectorIdx : ℕ) (vv : VectorVersionInfo cap) :
    VersionInfo cap where
  vectorsInfo :=
    (vi.vectorsInfo ++ List.replicate (vectorIdx + 1 - vi.vectorsInfo.length) none).set
      vectorIdx (some vv)

/-- The loop body of the operations on a range of rows. -/
def applyToVector (f : VectorVersionInfo cap → ℕ → ℕ → Option (VectorVersionInfo cap))
    (vi : VersionInfo cap) : ℕ × ℕ × ℕ → Option (VersionInfo cap)
  | (vectorIdx, startRowIdx, numRowsInVector) =>
    (f (vi.getOrCreateVersionInfo vectorIdx) startRowIdx numRowsInVector).map
      (vi.setVectorVersionInfo vectorIdx)

/-- The loop of `append`, `commitInsert`, `rollbackInsert`, `commitDelete` and
`rollbackDelete`. -/
def applyToVectors (vi : VersionInfo cap)
    (f : VectorVersionInfo cap → ℕ → ℕ → Option (VectorVersionInfo cap))
    (startRow numRows : ℕ) : Option (VersionInfo cap) :=
  if numRows = 0 then
    some vi
  else
    (vectorSegments cap startRow numRows).foldlM (applyToVector f) vi

def append (vi : VersionInfo cap) (transactionID startRow numRows : ℕ) :
    Option (VersionInfo cap) :=
  vi.applyToVectors (fun vv => vv.append transactionID) startRow numRows

def commitInsert (vi : VersionInfo cap) (startRow numRows commitTS : ℕ) :
    Option (VersionInfo cap) :=
  vi.applyToVectors (fun vv => vv.setInsertCommitTS commitTS) startRow numRows

def rollbackInsert (vi : VersionInfo cap) (startRow numRows : ℕ) : Option (VersionInfo cap) :=
  vi.applyToVectors (fun vv s n => some (vv.rollbackInsertions s n)) startRow numRows

def commitDelete (vi : VersionInfo cap) (startRow numRows commitTS : ℕ) :
    Option (VersionInfo cap) :=
  vi.applyToVectors (fun vv => vv.setDeleteCommitTS commitTS) startRow numRows

def rollbackDelete (vi : VersionInfo cap) (startRow numRows : ℕ) : Option (VersionInfo cap) :=
  vi.applyToVectors (fun vv s n => some (vv.rollbackDeletions s n)) startRow numRows

/-- `delete_`: a vector without insertions holds checkpointed rows only. -/
def delete_ (vi : VersionInfo cap) (transactionID rowIdx : ℕ) :
    VersionInfo cap × Except String Bool :=
  let vectorIdx := rowIdx / cap
  let vv := vi.getOrCreateVersionInfo vectorIdx
  let vv := if vv.insertionStatus = .noInserted then { vv with insertionStatus := .alwaysInserted }
    else vv
  let (vv, result) := vv.delete_ transactionID (rowIdx % cap)
  (vi.setVectorVersionInfo vectorIdx vv, result)

def isSelected (vi : VersionInfo cap) (startTS transactionID rowIdx : ℕ) : Option Bool :=
  match vi.getVectorVersionInfo (rowIdx / cap) with
  | some vv => vv.isSelected startTS transactionID (rowIdx % cap)
  | none => some true

/-- The loop body of `getSelVectorToScan`, on the selection vector and `outputPos`. -/
def scanSegment (vi : VersionInfo cap) (startTS transactionID : ℕ) :
    SelectionVector × ℕ → ℕ × ℕ × ℕ → Option (SelectionVector × ℕ)
  | (selVector, outputPos), (vectorIdx, startRowIdx, numRowsInVector) => do
    let selVector ←
      match vi.getVectorVersionInfo vectorIdx with
      | none =>
        if selVector.isUnfiltered then
          some (selVector.setSelSize (selVector.selectedSize + numRowsInVector))
        else
          some ((List.range numRowsInVector).foldl
            (fun sv i => sv.pushPosition (outputPos + i)) selVector).setToFiltered
      | some vv =>
        vv.getSelVectorForScan startTS transactionID selVector startRowIdx numRowsInVector
          outputPos
    return (selVector, outputPos + numRowsInVector)

/-- `getSelVectorToScan`. It asserts that `outputPos`, which ends at `numRows`, is at most the
vector capacity: no scan asks for more rows (`NodeGroup.scan`). -/
def getSelVectorToScan (vi : VersionInfo cap) (startTS transactionID : ℕ)
    (selVector : SelectionVector) (startRow numRows : ℕ) : Option SelectionVector :=
  if numRows = 0 then
    some selVector
  else do
    let (selVector, _) ← (vectorSegments cap startRow numRows).foldlM
      (vi.scanSegment startTS transactionID) (selVector.setToUnfiltered 0, 0)
    return selVector

end VersionInfo

end Ladybug
