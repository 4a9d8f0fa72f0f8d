import Ladybug.Lib.Fold
import Mathlib.Algebra.Group.Nat.Defs

/-!
# The rows of a bound node

The `NodeCSRIndex` of a bound node has the rows of the node in its CSR node group: a first row and
a length while the rows follow each other, a list of rows otherwise.
-/

namespace Ladybug

structure NodeCSRIndex where
  isSequential : Bool
  rowIndices : List ℕ

namespace NodeCSRIndex

def getNumRows (index : NodeCSRIndex) : ℕ :=
  if index.isSequential then index.rowIndices.getD 1 0 else index.rowIndices.length

def getRows (index : NodeCSRIndex) : List ℕ :=
  if index.isSequential then .range' (index.rowIndices.getD 0 0) (index.rowIndices.getD 1 0)
  else index.rowIndices

/-- `sequential` of `updateCSRIndex`: there are no rows, or the new ones come right behind them. -/
def sequential (index : NodeCSRIndex) (startRow : ℕ) : Bool :=
  index.rowIndices.isEmpty || index.isSequential &&
    index.rowIndices.getD 0 0 + index.rowIndices.getD 1 0 == startRow

/-- The loops of `updateCSRIndex`.  They count to a length of 64 bits in 32 bits, and do not end
when it is too large for that. -/
def pushRows (rowIndices : List ℕ) (startRow length : ℕ) : Option (List ℕ) :=
  if length < 2 ^ 32 then some (rowIndices ++ .range' startRow length) else none

def updateCSRIndex (index : NodeCSRIndex) (startRow length : ℕ) : Option NodeCSRIndex := do
  if index.sequential startRow then
    if index.rowIndices.isEmpty then return ⟨true, [startRow, length]⟩
    else return ⟨true, index.rowIndices.modify 1 (· + length)⟩
  else
    let rowIndices ←
      if index.isSequential then
        pushRows [] (index.rowIndices.getD 0 0) (index.rowIndices.getD 1 0)
      else some index.rowIndices
    return ⟨false, (← pushRows rowIndices startRow length).mergeSort⟩

end NodeCSRIndex

structure CSRNodeGroup where
  numRows : ℕ
  csrIndex : ℕ → NodeCSRIndex

inductive CSRAppend where
  | appendChunkedCSRGroup (lengths : List ℕ)
  | append (boundOffsetInGroup : ℕ)

/-- The calls of `updateCSRIndex`, with their lengths and bound nodes. -/
def CSRAppend.calls : CSRAppend → List (ℕ × ℕ)
  | .appendChunkedCSRGroup lengths => lengths.zipIdx
  | .append boundOffsetInGroup => [(1, boundOffsetInGroup)]

namespace CSRNodeGroup

def init : CSRNodeGroup := ⟨0, fun _ => ⟨false, []⟩⟩

/-- A call, for the rows that `startRow` has come to. -/
def call (s : CSRNodeGroup) (c : ℕ × ℕ) : Option CSRNodeGroup := do
  let index ← (s.csrIndex c.2).updateCSRIndex s.numRows c.1
  return ⟨s.numRows + c.1, Function.update s.csrIndex c.2 index⟩

end CSRNodeGroup

end Ladybug
