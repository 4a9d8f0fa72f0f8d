import Ladybug.Storage.SharedNodeGroup

/-!
# Node group collections

`NodeGroupCollection::append` spreads rows over node groups of `capacity` (`NODE_GROUP_SIZE`) rows.
A node group counts the rows that it has and, apart from them, the rows that it has reserved. A
rollback takes back the first count only.
-/

namespace Ladybug

variable {cap m : ℕ} {V : Type} (capacity chunkCap transactionID : ℕ)

/-- A node group of a collection: its rows, with the insert records of the active transactions, and
`nextRowToAppend`. -/
structure CollectedGroup (cap m : ℕ) (V : Type) where
  group : SharedNodeGroup cap m V
  nextRowToAppend : ℕ

namespace CollectedGroup

def new : CollectedGroup cap m V := ⟨.init none, 0⟩

def numRows (g : CollectedGroup cap m V) : ℕ := g.group.nodeGroup.numRows

def getNumRowsLeftToAppend (g : CollectedGroup cap m V) : ℕ := capacity - g.nextRowToAppend

def isFull (g : CollectedGroup cap m V) : Bool := g.numRows = capacity

/-- `moveNextRowToAppend`, `pushInsertInfo` and `append`. -/
def append (g : CollectedGroup cap m V) (rows : List (Fin m → V)) :
    Option (CollectedGroup cap m V) := do
  let group ← g.group.step chunkCap (.append transactionID rows)
  return ⟨group, g.nextRowToAppend + rows.length⟩

/-- The end of a transaction in the node group.  `nextRowToAppend` stays. -/
def endTransaction (a : WriterAction m V) (g : CollectedGroup cap m V) :
    Option (CollectedGroup cap m V) := do
  let group ← g.group.step chunkCap a
  return { g with group }

end CollectedGroup

/-- `NodeGroupCollection`, as the list of its node groups. -/
abbrev NodeGroupCollection (cap m : ℕ) (V : Type) := List (CollectedGroup cap m V)

namespace NodeGroupCollection

/-- The node group that takes the next rows, a new one when the last is full, and the node groups
before it. -/
def lastGroup (c : NodeGroupCollection cap m V) :
    NodeGroupCollection cap m V × CollectedGroup cap m V :=
  match c.getLast? with
  | some last => if last.isFull capacity then (c, .new) else (c.dropLast, last)
  | none => ([], .new)

/-- The loop of `append` over the rows that are left, in at most `fuel` rounds. -/
def appendLoop : ℕ → NodeGroupCollection cap m V → List (Fin m → V) →
    Option (NodeGroupCollection cap m V)
  | _, c, [] => some c
  | 0, _, _ :: _ => none
  | fuel + 1, c, row :: rows => do
    let (groups, last) := lastGroup capacity c
    let numToAppend := min (row :: rows).length (last.getNumRowsLeftToAppend capacity)
    let last ← last.append chunkCap transactionID ((row :: rows).take numToAppend)
    appendLoop fuel (groups ++ [last]) ((row :: rows).drop numToAppend)

/-- `append` of vectors, which are one batch of rows, or of a node group, which has one batch in
each chunked group. -/
def append (fuel : ℕ) (c : NodeGroupCollection cap m V) (batches : List (List (Fin m → V))) :
    Option (NodeGroupCollection cap m V) :=
  batches.foldlM (appendLoop capacity chunkCap transactionID fuel)
    (if c.isEmpty then [.new] else c)

def commit (commitTS : ℕ) (c : NodeGroupCollection cap m V) :
    Option (NodeGroupCollection cap m V) :=
  c.mapM (·.endTransaction chunkCap (.commit transactionID commitTS))

/-- The rollback of a transaction.  Node groups without rows at the end are dropped. -/
def rollback (c : NodeGroupCollection cap m V) : Option (NodeGroupCollection cap m V) := do
  let c ← c.mapM (·.endTransaction chunkCap (.rollback transactionID))
  return c.rdropWhile (·.numRows = 0)

end NodeGroupCollection

end Ladybug
