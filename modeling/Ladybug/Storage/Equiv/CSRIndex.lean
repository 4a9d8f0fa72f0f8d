import Ladybug.Storage.CSRIndex

/-!
# Correctness of the rows of bound nodes

* `csrIndex_getRows_iff`: when every bound node has the rows that were appended for it.
-/

namespace Ladybug

open List NodeCSRIndex

variable {index : NodeCSRIndex} {startRow length : ℕ} {s : CSRNodeGroup} {nodes rows : List ℕ}

/-- There is no loop, or every loop ends. -/
def NodeCSRIndex.loopsEnd (index : NodeCSRIndex) (startRow length : ℕ) : Bool :=
  index.sequential startRow || length < 2 ^ 32 && (!index.isSequential || index.getNumRows < 2 ^ 32)

/-- The index has the rows `rows`. -/
structure NodeCSRIndex.HasRows (index : NodeCSRIndex) (rows : List ℕ) : Prop where
  getRows : index.getRows = rows
  pair : index.isSequential = true → ∃ start length, index.rowIndices = [start, length]

lemma updateCSRIndex_spec (h : index.HasRows rows)
    (hrows : (rows ++ range' startRow length).Pairwise (· < ·)) :
    ∃ index', HasRows index' (rows ++ range' startRow length) ∧
      index.updateCSRIndex startRow length =
        if index.loopsEnd startRow length then some index' else none := by
  obtain ⟨isSequential, rowIndices⟩ := index
  obtain ⟨rfl, hpair⟩ := h
  -- the rows are sorted already
  have hsort := mergeSort_of_pairwise (hrows.imp fun hlt => decide_eq_true (Nat.le_of_lt hlt))
  cases isSequential with
  | false =>
    cases rowIndices with
    | nil => exact ⟨⟨true, [startRow, length]⟩, ⟨rfl, fun _ => ⟨_, _, rfl⟩⟩, rfl⟩
    | cons a l =>
      refine ⟨⟨false, mergeSort (a :: l ++ range' startRow length) (· ≤ ·)⟩, ⟨hsort, nofun⟩, ?_⟩
      by_cases hlen : length < 2 ^ 32 <;>
        simp [-Nat.reducePow, updateCSRIndex, loopsEnd, sequential, pushRows, hlen]
  | true =>
    obtain ⟨start, n, rfl⟩ := hpair rfl
    by_cases hseq : start + n = startRow
    · subst hseq
      refine ⟨⟨true, [start, n + length]⟩, ⟨range'_append_1.symm, fun _ => ⟨_, _, rfl⟩⟩, ?_⟩
      simp [updateCSRIndex, loopsEnd, sequential]
    · refine ⟨⟨false, mergeSort (range' start n ++ range' startRow length) (· ≤ ·)⟩,
        ⟨hsort, nofun⟩, ?_⟩
      by_cases hn : n < 2 ^ 32 <;> by_cases hlen : length < 2 ^ 32 <;>
        simp [-Nat.reducePow, updateCSRIndex, loopsEnd, sequential, pushRows, getNumRows, hn, hlen,
          hseq]

namespace CSRNodeGroup

/-- The bound node of each row. -/
def boundNodes (calls : List (ℕ × ℕ)) : List ℕ := calls.flatMap fun c => replicate c.1 c.2

/-- The rows of a bound node, ascending. -/
def rowsOf (nodes : List ℕ) (i : ℕ) : List ℕ := (range nodes.length).filter (nodes[·]? = some i)

lemma rowsOf_append (nodes : List ℕ) (n i j : ℕ) : rowsOf (nodes ++ replicate n j) i =
    rowsOf nodes i ++ if i = j then range' nodes.length n else [] := by
  rw [rowsOf, length_append, length_replicate, range_add, filter_append, filter_map]
  congr 1
  · refine filter_congr fun r hr => ?_
    rw [getElem?_append_left (mem_range.mp hr)]
  · rw [range'_eq_map_range]
    split_ifs with h
    · refine congrArg _ (filter_eq_self.mpr fun r hr => ?_)
      simp [mem_range.mp hr, h]
    · refine map_eq_nil_iff.mpr (filter_eq_nil_iff.mpr fun r hr => ?_)
      simp [mem_range.mp hr, Ne.symm h]

/-- Every bound node has its rows. -/
structure Rep (s : CSRNodeGroup) (nodes : List ℕ) : Prop where
  numRows : s.numRows = nodes.length
  hasRows : ∀ i, (s.csrIndex i).HasRows (rowsOf nodes i)

lemma call_spec (h : s.Rep nodes) (c : ℕ × ℕ) : ∃ s', Rep s' (nodes ++ replicate c.1 c.2) ∧
    s.call c = if (s.csrIndex c.2).loopsEnd s.numRows c.1 then some s' else none := by
  have hrows : (rowsOf (nodes ++ replicate c.1 c.2) c.2).Pairwise (· < ·) :=
    pairwise_lt_range.filter _
  rw [rowsOf_append, if_pos rfl, ← h.numRows] at hrows
  obtain ⟨index', hindex, hupdate⟩ := updateCSRIndex_spec (h.hasRows c.2) hrows
  refine ⟨⟨s.numRows + c.1, Function.update s.csrIndex c.2 index'⟩, ⟨?_, fun i => ?_⟩, ?_⟩
  · rw [length_append, length_replicate, h.numRows]
  · dsimp only
    rw [rowsOf_append, ← h.numRows]
    by_cases hi : i = c.2
    · rw [hi, Function.update_self, if_pos rfl]
      exact hindex
    · rw [Function.update_of_ne hi, if_neg hi, append_nil]
      exact h.hasRows i
  · rw [call, hupdate]
    split_ifs <;> rfl

lemma calls_iff (h : s.Rep nodes) (calls : List (ℕ × ℕ)) :
    (∃ s', calls.foldlM call s = some s' ∧
      ∀ i, (s'.csrIndex i).getRows = rowsOf (nodes ++ boundNodes calls) i) ↔
    Fold.Guarded call (fun s c => (s.csrIndex c.2).loopsEnd s.numRows c.1 = true) s calls := by
  induction calls generalizing s nodes with
  | nil =>
    refine iff_of_true ⟨s, rfl, fun i => ?_⟩ trivial
    rw [(h.hasRows i).getRows, boundNodes, flatMap_nil, append_nil]
  | cons c calls ih =>
    obtain ⟨m, hm, hcall⟩ := call_spec h c
    rw [boundNodes, flatMap_cons, ← boundNodes, ← append_assoc, Fold.Guarded, foldlM_cons, hcall]
    split_ifs with hends
    · simpa [hends] using ih hm
    · simp [hends]

/-- **The rows of bound nodes.**  After any appends every index has the rows that were appended for
its node, in ascending order, when every loop over a list of rows has fewer than 2³² of them. -/
theorem csrIndex_getRows_iff (appends : List CSRAppend) :
    (∃ s, (appends.flatMap CSRAppend.calls).foldlM call init = some s ∧
      ∀ i, (s.csrIndex i).getRows = rowsOf (boundNodes (appends.flatMap CSRAppend.calls)) i) ↔
    Fold.Guarded call (fun s c => (s.csrIndex c.2).loopsEnd s.numRows c.1 = true) init
      (appends.flatMap CSRAppend.calls) := by
  have hinit : init.Rep [] := ⟨rfl, fun _ => ⟨rfl, nofun⟩⟩
  exact calls_iff hinit _

/-- A node gets 2³² rows, another node one, and then the first node one more. -/
theorem csrIndex_getRows_long :
    (([.appendChunkedCSRGroup [2 ^ 32], .append 1, .append 0].flatMap
      CSRAppend.calls).foldlM call init).isNone = true := by
  decide

end CSRNodeGroup

end Ladybug
