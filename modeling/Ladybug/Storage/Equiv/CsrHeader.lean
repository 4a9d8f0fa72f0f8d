import Ladybug.Storage.CsrHeader
import Mathlib.Data.List.GetD

/-!
# The two ways to read a CSR header

* `scanCommitted_one`, `scanCommitted_all`: what the two ways read of a header column.
* `csrHeader_randomLookup`: both give a node the same list length, and a list that is not empty the
  same start.
-/

namespace Ladybug

namespace ChunkedCSRHeader

variable (values : List ℕ) (header : ChunkedCSRHeader) (x : ℕ) (randomLookup : Bool)

lemma scanCommitted_one : scanCommitted values x (some 1) = values[x]?.toList := by
  unfold scanCommitted
  rcases Nat.lt_or_ge x values.length with hlt | hge
  · have hle : x + 1 ≤ values.length := hlt
    simp [Option.filter, hle, hlt, List.take_one]
  · rw [if_pos (.inr hge), List.getElem?_eq_none hge]
    rfl

lemma scanCommitted_all : scanCommitted values 0 none = values := by
  cases values <;> simp [scanCommitted]

lemma getCSRLength_init :
    (header.initScanForCommittedPersistent randomLookup x).getCSRLength x =
      header.length.getD x 0 := by
  unfold initScanForCommittedPersistent getCSRLength
  cases randomLookup with
  | false => simp +contextual [scanCommitted_all]
  | true => cases h : header.length[x]? <;> simp [scanCommitted_one, h]

lemma getStartCSROffset_init :
    (header.initScanForCommittedPersistent randomLookup x).getStartCSROffset x =
      if x = 0 then 0 else
        header.offset.getD (if randomLookup then x - 1 else min x header.offset.length - 1) 0 := by
  unfold initScanForCommittedPersistent getStartCSROffset
  by_cases hx : x = 0
  · simp [hx]
  cases randomLookup with
  | false =>
    have hmin : (if header.offset.length ≤ x then header.offset.length - 1 else x - 1) =
        min x header.offset.length - 1 := by
      split <;> omega
    by_cases hnil : header.offset = [] <;> simp [scanCommitted_all, hx, hnil, hmin]
  | true => cases h : header.offset[x - 1]? <;> simp [scanCommitted_one, h, hx]

/-- **A lookup of one node and a scan of the header give every list the same length and rows.**  The
starts differ for the empty list of a node that is not next to a header with rows: the lookup starts
it at 0, and the scan where the last list ends. -/
theorem csrHeader_randomLookup (h : header.offset.length = header.length.length) :
    let lookup := header.initScanForCommittedPersistent true x
    let whole := header.initScanForCommittedPersistent false x
    lookup.getCSRLength x = whole.getCSRLength x ∧
      (whole.getCSRLength x ≠ 0 → lookup.getStartCSROffset x = whole.getStartCSROffset x) ∧
      (lookup.getStartCSROffset x = whole.getStartCSROffset x ↔
        x ≤ header.offset.length ∨ header.offset.getLastD 0 = 0) ∧
      (header.offset.length < x → whole.getCSRLength x = 0 ∧ lookup.getStartCSROffset x = 0 ∧
        whole.getStartCSROffset x = header.offset.getLastD 0) := by
  simp only [getCSRLength_init, getStartCSROffset_init]
  rcases Nat.lt_or_ge header.offset.length x with hgt | hle
  · have hx : x ≠ 0 := by omega
    -- the node is behind the header: the lookup reads nothing
    rw [List.getD_eq_default _ _ (by omega : header.length.length ≤ x), if_neg hx, if_neg hx,
      if_pos trivial, if_neg Bool.false_ne_true, Nat.min_eq_right (Nat.le_of_lt hgt),
      List.getD_eq_default _ _ (by omega : header.offset.length ≤ x - 1),
      List.getLastD_eq_getLast?, List.getLast?_eq_getElem?]
    simp [Nat.not_le_of_lt hgt, eq_comm]
  · simp [hle, Nat.not_lt_of_ge hle]

/-- The second of two lists has four rows, after the three that are reserved for the first. -/
theorem csrHeader_randomLookup_next :
    (initScanForCommittedPersistent ⟨[3, 8], [2, 4], false⟩ false 1).getCSRLength 1 = 4 ∧
      (initScanForCommittedPersistent ⟨[3, 8], [2, 4], false⟩ true 1).getStartCSROffset 1 =
        (initScanForCommittedPersistent ⟨[3, 8], [2, 4], false⟩ false 1).getStartCSROffset 1 :=
  ⟨by decide, (csrHeader_randomLookup ⟨[3, 8], [2, 4], false⟩ 1 rfl).2.1 (by decide)⟩

/-- A node that is not next to a header of one list: its empty list starts at 0 or at the end of
the rows. -/
theorem csrHeader_randomLookup_behind :
    (initScanForCommittedPersistent ⟨[3], [2], false⟩ true 2).getStartCSROffset 2 = 0 ∧
      (initScanForCommittedPersistent ⟨[3], [2], false⟩ false 2).getStartCSROffset 2 = 3 := by
  decide

end ChunkedCSRHeader

end Ladybug
