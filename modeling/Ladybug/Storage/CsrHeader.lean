import Mathlib.Data.Nat.Notation

/-!
# The CSR header of a node group

What a scan of the rels of a node reads of the header on disk (`csr_node_group.cpp`,
`csr_chunked_node_group.cpp`). A header column is the list of its values.
-/

namespace Ladybug

/-- `ChunkedCSRHeader`, on disk or as a scan state holds it. -/
structure ChunkedCSRHeader where
  offset : List ℕ
  length : List ℕ
  randomLookup : Bool := false

namespace ChunkedCSRHeader

def getStartCSROffset (header : ChunkedCSRHeader) (nodeOffset : ℕ) : ℕ :=
  let numValues := header.offset.length
  if nodeOffset = 0 ∨ numValues = 0 then 0
  else if header.randomLookup then header.offset.getD 0 0
  else header.offset.getD (if nodeOffset ≥ numValues then numValues - 1 else nodeOffset - 1) 0

def getCSRLength (header : ChunkedCSRHeader) (nodeOffset : ℕ) : ℕ :=
  let offset := if header.randomLookup then 0 else nodeOffset
  if offset ≥ header.length.length then 0 else header.length.getD offset 0

/-- `scanCommitted`: the values that are put behind the ones of the output; without `numRows` they
are all from `startRow` on. -/
def scanCommitted (values : List ℕ) (startRow : ℕ) (numRows : Option ℕ) : List ℕ :=
  -- where the source's subtraction wraps around, the test behind it returns
  let numRows := (numRows.filter (startRow + · ≤ values.length)).getD (values.length - startRow)
  if numRows = 0 ∨ startRow ≥ values.length then [] else (values.drop startRow).take numRows

/-- `initScanForCommittedPersistent`: the header of the scan state, for the node at `offsetInGroup`
with `randomLookup`, else for all nodes. -/
def initScanForCommittedPersistent (csrHeader : ChunkedCSRHeader) (randomLookup : Bool)
    (offsetInGroup : ℕ) : ChunkedCSRHeader :=
  if randomLookup then
    let offsetToScanFrom := if offsetInGroup = 0 then 0 else offsetInGroup - 1
    ⟨scanCommitted csrHeader.offset offsetToScanFrom (some 1),
      scanCommitted csrHeader.length offsetInGroup (some 1), true⟩
  else ⟨scanCommitted csrHeader.offset 0 none, scanCommitted csrHeader.length 0 none, false⟩

end ChunkedCSRHeader

end Ladybug
