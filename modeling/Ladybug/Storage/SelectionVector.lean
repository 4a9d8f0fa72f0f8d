import Mathlib.Data.List.Range

/-!
# Selection vectors

`SelectionVector` lists the positions of a vector that a scan has selected. It is either
*unfiltered*, when it selects `0, …, selectedSize - 1` through a shared constant array and its
own buffer may hold anything, or *filtered*, when the first `selectedSize` entries of its buffer
are the selected positions.
-/

namespace Ladybug

/-- `SelectionView::State`. -/
inductive SelectionState where
  | dynamic
  | static
  deriving Repr, DecidableEq

/-- `SelectionVector`.  In the static state `selectedPositions` points into
`INCREMENTAL_SELECTED_POS`, in the dynamic state to the buffer. -/
structure SelectionVector where
  state : SelectionState
  selectedSize : ℕ
  /-- `selectedPositionsBuffer` -/
  buffer : ℕ → ℕ

namespace SelectionVector

def getSelectedPositions (sv : SelectionVector) : List ℕ :=
  match sv.state with
  | .static => List.range sv.selectedSize
  | .dynamic => (List.range sv.selectedSize).map sv.buffer

/-- `operator[]`: the bound is the capacity, not the size. -/
def positionAt (sv : SelectionVector) (i : ℕ) : ℕ :=
  match sv.state with
  | .static => i
  | .dynamic => sv.buffer i

/-- `isUnfiltered`: the static arrays of the scans below all start at position 0. -/
def isUnfiltered (sv : SelectionVector) : Bool := sv.state = .static

/-- `setToUnfiltered(size)`. -/
def setToUnfiltered (sv : SelectionVector) (size : ℕ) : SelectionVector :=
  { sv with state := .static, selectedSize := size }

def setSelSize (sv : SelectionVector) (size : ℕ) : SelectionVector :=
  { sv with selectedSize := size }

/-- `setToFiltered(size)` with the size already in place. -/
def setToFiltered (sv : SelectionVector) : SelectionVector :=
  { sv with state := .dynamic }

/-- `makeDynamic`: copies the selected positions into the buffer. -/
def makeDynamic (sv : SelectionVector) : SelectionVector :=
  { sv with
    state := .dynamic
    buffer := fun i => if i < sv.selectedSize then sv.getSelectedPositions.getD i 0
      else sv.buffer i }

/-- `getMutableBuffer()[numSelected++] = pos`, the loop body of the scans. -/
def pushPosition (sv : SelectionVector) (pos : ℕ) : SelectionVector :=
  { sv with
    buffer := Function.update sv.buffer sv.selectedSize pos
    selectedSize := sv.selectedSize + 1 }

@[simp] lemma state_pushPosition (sv : SelectionVector) (pos : ℕ) :
    (sv.pushPosition pos).state = sv.state := rfl

@[simp] lemma state_setToFiltered (sv : SelectionVector) : sv.setToFiltered.state = .dynamic := rfl

@[simp] lemma state_makeDynamic (sv : SelectionVector) : sv.makeDynamic.state = .dynamic := rfl

variable {sv : SelectionVector}

lemma getSelectedPositions_of_static (h : sv.state = .static) :
    sv.getSelectedPositions = List.range sv.selectedSize := by
  rw [getSelectedPositions, h]

lemma getSelectedPositions_of_dynamic (h : sv.state = .dynamic) :
    sv.getSelectedPositions = (List.range sv.selectedSize).map sv.buffer := by
  rw [getSelectedPositions, h]

/-- The selected positions in order. -/
lemma getSelectedPositions_eq (sv : SelectionVector) :
    sv.getSelectedPositions = (List.range sv.selectedSize).map sv.positionAt := by
  unfold getSelectedPositions positionAt
  split <;> simp

@[simp] lemma length_getSelectedPositions (sv : SelectionVector) :
    sv.getSelectedPositions.length = sv.selectedSize := by
  rw [getSelectedPositions]
  split <;> simp

lemma setToFiltered_of_dynamic (h : sv.state = .dynamic) : sv.setToFiltered = sv := by
  cases sv
  simp_all [setToFiltered]

@[simp] lemma getSelectedPositions_makeDynamic (sv : SelectionVector) :
    sv.makeDynamic.getSelectedPositions = sv.getSelectedPositions := by
  rw [getSelectedPositions_of_dynamic (state_makeDynamic sv)]
  apply List.ext_getElem
  · simp [makeDynamic]
  · intro i h1 h2
    have hi : i < sv.selectedSize := by simpa using h2
    simp [makeDynamic, hi]

/-- Pushing appends a position. -/
lemma getSelectedPositions_pushPosition (h : sv.state = .dynamic) (pos : ℕ) :
    (sv.pushPosition pos).getSelectedPositions = sv.getSelectedPositions ++ [pos] := by
  have h' : (sv.pushPosition pos).state = .dynamic := h
  rw [getSelectedPositions_of_dynamic h', getSelectedPositions_of_dynamic h]
  simp only [pushPosition, List.range_succ, List.map_append, List.map_cons, List.map_nil,
    Function.update_self, List.append_cancel_right_eq]
  -- the earlier entries keep their place below the one that is written
  refine List.map_congr_left fun i hi => ?_
  have : i < sv.selectedSize := List.mem_range.mp hi
  rw [Function.update_of_ne (by omega)]

end SelectionVector

end Ladybug
