import Ladybug.Transaction.TransactionManager

/-!
# Updates of the rows of a column chunk

`UpdateInfo` keeps, for every vector of rows, a chain of `VectorUpdateInfo`s, the newest first.
Each of them holds the rows of the vector that one transaction has updated and their new values.
A chain is a list here; the `next` and `prev` pointers are the order of the list, and `ptr` stands
for the address that an undo record keeps.

`cap` is `DEFAULT_VECTOR_CAPACITY` and `V` the type of the values.
-/

namespace Ladybug

variable {V : Type}

/-- `VectorUpdateInfo`: entry `i` of `rows` is `rowsInVector[i]` with entry `i` of `data`. -/
structure VectorUpdateInfo (V : Type) where
  ptr : ℕ
  version : ℕ
  rows : List (ℕ × V)

namespace VectorUpdateInfo

/-- Whether one of the updated rows is `rowIdxInVector`. -/
def hasRow (info : VectorUpdateInfo V) (rowIdxInVector : ℕ) : Bool :=
  info.rows.any fun r => r.1 == rowIdxInVector

/-- The first entry for the row. -/
def lookup (info : VectorUpdateInfo V) (rowInVector : ℕ) : Option V :=
  (info.rows.find? fun r => r.1 == rowInVector).map Prod.snd

/-- Overwrites the first entry for the row, or appends one. -/
def writeRow (rowIdxInVector : ℕ) (value : V) : List (ℕ × V) → List (ℕ × V)
  | [] => [(rowIdxInVector, value)]
  | r :: rows =>
    if r.1 = rowIdxInVector then (r.1, value) :: rows
    else r :: writeRow rowIdxInVector value rows

/-- Whether the version is the transaction's own or was committed when it started. -/
def readableBy (T : Transaction) (info : VectorUpdateInfo V) : Bool :=
  info.version == T.id || info.version ≤ T.startTS

end VectorUpdateInfo

/-- `UpdateInfo`: the chains of the vectors; `nextPtr` is the next address to hand out. -/
structure UpdateInfo (V : Type) where
  updates : List (List (VectorUpdateInfo V)) := []
  nextPtr : ℕ := 0

namespace UpdateInfo

/-- The message of the exception that `update` throws. -/
def updateConflict : String := "Write-write conflict of updating the same row."

/-- The chain of a vector; a vector that has none yet is not updated. -/
def chain (ui : UpdateInfo V) (vectorIdx : ℕ) : List (VectorUpdateInfo V) :=
  ui.updates.getD vectorIdx []

/-- `getOrCreateUpdateNode`: resizes the vector of chains. -/
def getOrCreateUpdateNode (ui : UpdateInfo V) (vectorIdx : ℕ) : UpdateInfo V :=
  { ui with updates := ui.updates ++ List.replicate (vectorIdx + 1 - ui.updates.length) [] }

/-- Writes a chain that is there. -/
def setChain (ui : UpdateInfo V) (vectorIdx : ℕ) (c : List (VectorUpdateInfo V)) : UpdateInfo V :=
  { ui with updates := ui.updates.set vectorIdx c }

/-- The traversal of `update`: looks for the transaction's own version and for conflicts. -/
def findVersion (T : Transaction) (rowIdxInVector : ℕ) :
    List (VectorUpdateInfo V) → Option ℕ → Except String (Option ℕ)
  | [], vecUpdateInfo => .ok vecUpdateInfo
  | current :: prev, vecUpdateInfo =>
    if current.version = T.id then
      findVersion T rowIdxInVector prev (some current.ptr)
    else if current.version > T.startTS then
      if current.hasRow rowIdxInVector then .error updateConflict
      else findVersion T rowIdxInVector prev vecUpdateInfo
    else findVersion T rowIdxInVector prev vecUpdateInfo

/-- `update`: the new state, and the address of the version written or the message of the
exception. -/
def update (ui : UpdateInfo V) (T : Transaction) (vectorIdx rowIdxInVector : ℕ) (value : V) :
    UpdateInfo V × Except String ℕ :=
  let ui := ui.getOrCreateUpdateNode vectorIdx
  let c := ui.chain vectorIdx
  match findVersion T rowIdxInVector c none with
  | .error e => (ui, .error e)
  | .ok (some ptr) =>
    (ui.setChain vectorIdx (c.map fun info =>
      if info.ptr = ptr then
        { info with rows := VectorUpdateInfo.writeRow rowIdxInVector value info.rows }
      else info), .ok ptr)
  | .ok none =>
    let newInfo := ⟨ui.nextPtr, T.id, [(rowIdxInVector, value)]⟩
    ({ ui.setChain vectorIdx (newInfo :: c) with nextPtr := ui.nextPtr + 1 }, .ok ui.nextPtr)

/-- `commit`; `none` when the vector has no chain or the version is not in it. -/
def commit (ui : UpdateInfo V) (vectorIdx ptr commitTS : ℕ) : Option (UpdateInfo V) :=
  if vectorIdx < ui.updates.length ∧ (ui.chain vectorIdx).any (fun info => info.ptr == ptr) then
    some (ui.setChain vectorIdx ((ui.chain vectorIdx).map fun info =>
      if info.ptr = ptr then { info with version := commitTS } else info))
  else none

/-- `rollback`: unlinks the first version of the chain that is `version`. -/
def rollback (ui : UpdateInfo V) (vectorIdx version : ℕ) : Option (UpdateInfo V) :=
  if vectorIdx < ui.updates.length then
    some (ui.setChain vectorIdx ((ui.chain vectorIdx).eraseP fun info => info.version == version))
  else none

/-! ### Reading -/

variable {σ : Type}

/-- `iterateVectorInfo`: applies `func` to the versions that `T` reads, the newest first. -/
def iterateVectorInfo (ui : UpdateInfo V) (T : Transaction) (idx : ℕ)
    (func : σ → VectorUpdateInfo V → σ) (s : σ) : σ :=
  (ui.chain idx).foldl (fun s current => if current.readableBy T then func s current else s) s

/-- The loop of `iterateScan` over the rows of one version.  `rowsUpdated` lists the bits that are
set: the rows of the scanned part that a newer version has written. -/
def scanRows (startOffset endOffset posInVector : ℕ) (readFromRowFunc : σ → V → ℕ → σ) :
    List (ℕ × V) → σ × List ℕ → σ × List ℕ
  | [], s => s
  | (row, value) :: rows, (s, rowsUpdated) =>
    if row < startOffset ∨ endOffset ≤ row then
      scanRows startOffset endOffset posInVector readFromRowFunc rows (s, rowsUpdated)
    else if row - startOffset ∈ rowsUpdated then
      scanRows startOffset endOffset posInVector readFromRowFunc rows (s, rowsUpdated)
    else
      scanRows startOffset endOffset posInVector readFromRowFunc rows
        (readFromRowFunc s value (posInVector + (row - startOffset)),
          (row - startOffset) :: rowsUpdated)

/-- The callback of `iterateScan`, for one version of a vector. -/
def scanVersion (startOffset endOffset posInVector : ℕ) (readFromRowFunc : σ → V → ℕ → σ)
    (s : σ × List ℕ) (info : VectorUpdateInfo V) : σ × List ℕ :=
  if info.rows.length = 0 then s
  else if s.2.length = endOffset - startOffset then s
  else scanRows startOffset endOffset posInVector readFromRowFunc info.rows s

/-- The loop body of `iterateScan`, for one vector. -/
def scanVector (ui : UpdateInfo V) (T : Transaction) (idx startOffset endOffset posInVector : ℕ)
    (readFromRowFunc : σ → V → ℕ → σ) (s : σ) : σ :=
  (ui.iterateVectorInfo T idx
    (scanVersion startOffset endOffset posInVector readFromRowFunc) (s, [])).1

def iterateScan (ui : UpdateInfo V) (cap : ℕ) (T : Transaction)
    (startOffsetToScan numRowsToScan startPosInOutput : ℕ) (readFromRowFunc : σ → V → ℕ → σ)
    (s : σ) : σ :=
  if ui.updates.isEmpty then s
  else
    let startVectorIdx := startOffsetToScan / cap
    let startOffsetInVector := startOffsetToScan % cap
    let endVectorIdx := (startOffsetToScan + numRowsToScan) / cap
    let endOffsetInVector := (startOffsetToScan + numRowsToScan) % cap
    ((List.range' startVectorIdx (endVectorIdx + 1 - startVectorIdx)).foldl
      (fun (s, posInVector) idx =>
        let startOffset := if idx = startVectorIdx then startOffsetInVector else 0
        let endOffset := if idx = endVectorIdx then endOffsetInVector else cap
        (ui.scanVector T idx startOffset endOffset posInVector readFromRowFunc s,
          posInVector + (endOffset - startOffset)))
      (s, startPosInOutput)).1

/-- `scan`: writes the updated values over `output`, from position 0 on. -/
def scan (ui : UpdateInfo V) (cap : ℕ) (T : Transaction) (output : ℕ → V)
    (offsetInChunk length : ℕ) : ℕ → V :=
  ui.iterateScan cap T offsetInChunk length 0 (fun output value pos =>
    Function.update output pos value) output

/-- `lookup`: writes the updated value, if there is one, over position `posInOutputVector`. -/
def lookup (ui : UpdateInfo V) (cap : ℕ) (T : Transaction) (rowInChunk : ℕ) (output : ℕ → V)
    (posInOutputVector : ℕ) : ℕ → V :=
  if ui.updates.isEmpty then output
  else
    (ui.iterateVectorInfo T (rowInChunk / cap)
      (fun (output, updated) info =>
        if updated then (output, updated)
        else
          match info.lookup (rowInChunk % cap) with
          | some value => (Function.update output posInOutputVector value, true)
          | none => (output, updated)) (output, false)).1

/-- `scanCommitted`: as `scan`, into a column chunk from `startOffsetInOutput` on. -/
def scanCommitted (ui : UpdateInfo V) (cap : ℕ) (T : Transaction) (output : ℕ → V)
    (startOffsetInOutput startRowScanned numRows : ℕ) : ℕ → V :=
  ui.iterateScan cap T startRowScanned numRows startOffsetInOutput (fun output value pos =>
    Function.update output pos value) output

end UpdateInfo

end Ladybug
