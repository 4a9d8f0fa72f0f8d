import Ladybug.Storage.Equiv.NodeGroup
import Ladybug.Storage.NodeTable
import Mathlib.Data.List.Intervals

/-!
# Scans under a semi mask

The mask decides vector by vector what a scan reads: a vector is read when the positions that the
selection vector holds from the scan before meet a masked row, and then all its rows are read that
the transaction sees.

* `semiMaskLoop_static`, `semiMaskLoop_first`: when the merge of `applySemiMaskFilter` selects a
  row. It starts at the first position that the selection vector holds, which is 0 until a vector
  was read.
* `scan_view`: the rows that the scan of a vector returns.
-/

namespace Ladybug

open Mvcc VersionInfo List SelectionVector
open List (range range' range'_succ)
open Option (bind_eq_bind bind_some)

/-! ### The merge of the mask with the selection vector -/

section Merge

variable {start n fuel i k v : ℕ} {arr : List ℕ} {sv : SelectionVector}

/-- The fuel suffices. -/
lemma semiMaskLoop_returns (hle : n - i + arr.length ≤ fuel) :
    ∃ sv' k', semiMaskLoop start n fuel arr i k sv = some (sv', k') ∧ k ≤ k' := by
  fun_induction semiMaskLoop start n fuel arr i k sv with
  | case1 | case2 => exact ⟨_, _, rfl, le_rfl⟩
  | case3 => simp at hle
  | case4 _ _ _ _ _ _ _ _ _ ih => exact ih (by rw [length_cons] at hle ⊢; omega)
  | case5 _ _ _ _ _ _ _ _ _ _ ih => exact ih (by rw [length_cons] at hle; omega)
  | case6 _ _ _ _ _ _ _ _ _ _ ih =>
    obtain ⟨sv', k', hrun, hk⟩ := ih (by rw [length_cons] at hle; omega)
    exact ⟨sv', k', hrun, by omega⟩

/-- The loop advances the smaller side. -/
lemma semiMaskLoop_cons (hle : start ≤ v) (hlt : v < 2 ^ 64) (hi : i < n) :
    semiMaskLoop start n (fuel + 1) (v :: arr) i k sv =
      if sv.positionAt i < v - start then semiMaskLoop start n fuel (v :: arr) (i + 1) k sv
      else if v - start < sv.positionAt i then semiMaskLoop start n fuel arr i k sv
      else semiMaskLoop start n fuel arr (i + 1) (k + 1)
        { sv with buffer := Function.update sv.buffer k (v - start) } := by
  have hsub : (v + 2 ^ 64 - start) % 2 ^ 64 = v - start := by omega
  rw [semiMaskLoop, if_neg (by omega)]
  rw [hsub]

/-- A masked row at the position that the selection vector holds is selected. -/
lemma semiMaskLoop_hit (hle : start ≤ v) (hlt : v < 2 ^ 64) (hi : i < n)
    (hpos : sv.positionAt i = v - start) (hfuel : n - i + arr.length ≤ fuel) :
    ∃ sv' k', semiMaskLoop start n (fuel + 1) (v :: arr) i k sv = some (sv', k') ∧ k < k' := by
  rw [semiMaskLoop_cons hle hlt hi, hpos, if_neg (lt_irrefl _), if_neg (lt_irrefl _)]
  exact semiMaskLoop_returns (by omega)

/-- From an unfiltered selection vector every masked row is selected. -/
lemma semiMaskLoop_static (hle : start ≤ v) (hlt : v < 2 ^ 64) (hn : v - start < n)
    (hstatic : sv.state = .static) (d : ℕ) (hi : i + d = v - start)
    (hfuel : n - i + (v :: arr).length ≤ fuel) :
    ∃ sv' k', semiMaskLoop start n fuel (v :: arr) i k sv = some (sv', k') ∧ k < k' := by
  rw [length_cons] at hfuel
  have hpos : sv.positionAt i = i := by rw [positionAt, hstatic]
  induction d generalizing fuel i with
  | zero =>
    obtain ⟨fuel, rfl⟩ : ∃ m, fuel = m + 1 := ⟨fuel - 1, by omega⟩
    exact semiMaskLoop_hit hle hlt (by omega) (by omega) (by omega)
  | succ d ih =>
    obtain ⟨fuel, rfl⟩ : ∃ m, fuel = m + 1 := ⟨fuel - 1, by omega⟩
    rw [semiMaskLoop_cons hle hlt (by omega), hpos, if_pos (by omega)]
    exact ih (by omega) (by omega) (by rw [positionAt, hstatic])

/-- When the mask covers the first `h` rows of the vector, the merge selects a row exactly when the
first position that the selection vector holds is among them. -/
lemma semiMaskLoop_first (start n h : ℕ) (sv : SelectionVector) (hlt : start + h < 2 ^ 64)
    (hn : 0 < n) (d j : ℕ) (hj : j + d = h) (hle : j ≤ sv.positionAt 0) (hfuel : n + d ≤ fuel) :
    ∃ sv' k', semiMaskLoop start n fuel (range' (start + j) d) 0 0 sv = some (sv', k') ∧
      (sv.positionAt 0 < h → 0 < k') ∧ (h ≤ sv.positionAt 0 → sv' = sv ∧ k' = 0) := by
  induction d generalizing fuel j with
  | zero =>
    refine ⟨sv, 0, ?_, fun hlt => ?_, fun _ => ⟨rfl, rfl⟩⟩
    · rw [List.range'_zero, semiMaskLoop]
    · omega
  | succ d ih =>
    obtain ⟨fuel, rfl⟩ : ∃ m, fuel = m + 1 := ⟨fuel - 1, by omega⟩
    rw [range'_succ]
    by_cases hgt : j < sv.positionAt 0
    · rw [semiMaskLoop_cons (by omega) (by omega) hn, if_neg (by omega), if_pos (by omega)]
      exact ih (j + 1) (by omega) hgt (by omega)
    · have hpos : sv.positionAt 0 = start + j - start := by omega
      have hlen : n - 0 + (range' (start + j + 1) d).length ≤ fuel := by
        rw [length_range']
        omega
      obtain ⟨sv', k', hrun, hk⟩ := semiMaskLoop_hit (k := 0) (by omega) (by omega) hn hpos hlen
      exact ⟨sv', k', hrun, fun _ => hk, fun hge => by omega⟩

end Merge

/-! ### One vector -/

lemma filter_range' (lo hi start stop : ℕ) :
    (range' lo (hi - lo)).filter (fun v => start ≤ v ∧ v < stop) =
      range' (max lo start) (min hi stop - max lo start) := by
  simp only [Bool.decide_and, ← filter_filter]
  show ((List.Ico lo hi).filter _).filter _ = List.Ico _ _
  rw [List.Ico.filter_lt, List.Ico.filter_le]

variable {lo hi f n start : ℕ} {sv : SelectionVector}

section

variable (hsmall : start + n < 2 ^ 32)

include hsmall

lemma range_eq :
    SemiMask.range ⟨lo, hi⟩ start (start + n) =
      range' (max lo start) (min hi (start + n) - max lo start) := by
  have hmod : start % 2 ^ 32 = start := Nat.mod_eq_of_lt (by omega)
  have hmod' : (start + n) % 2 ^ 32 = start + n := Nat.mod_eq_of_lt hsmall
  show (range' lo (hi - lo)).filter _ = _
  rw [hmod, hmod', filter_range']

/-- What the scan so far has left in the selection vector, before the vector that starts at
`start`: it is unfiltered, or masked rows have come before and `f` is the first position it
holds. -/
def SelAt (lo f start : ℕ) (sv : SelectionVector) : Prop :=
  sv.state = .static ∧ f = 0 ∨ lo ≤ start ∧ sv.positionAt 0 = f

/-- The vector of `n` rows at offset `start` is read. -/
def Reads (lo hi f start n : ℕ) : Prop :=
  max lo start < min hi (start + n) ∧ f < min hi (start + n) - start

instance (lo hi f start n : ℕ) : Decidable (Reads lo hi f start n) := by
  unfold Reads
  infer_instance

/-- A vector the mask reads keeps rows. -/
lemma applySemiMaskFilter_read (hsel : SelAt lo f start sv) (hreads : Reads lo hi f start n) :
    ∃ sv', applySemiMaskFilter ⟨lo, hi⟩ start n sv = some sv' ∧ sv'.selectedSize ≠ 0 := by
  obtain ⟨htouched, hf⟩ := hreads
  obtain ⟨d, hd⟩ : ∃ d, min hi (start + n) - max lo start = d + 1 :=
    ⟨min hi (start + n) - max lo start - 1, by omega⟩
  rw [applySemiMaskFilter, range_eq hsmall, hd, range'_succ]
  rw [if_neg (by simp)]
  have hloop : ∃ sv' k', semiMaskLoop start n (n + (max lo start :: range'
      (max lo start + 1) d).length) (max lo start :: range' (max lo start + 1) d) 0 0 sv =
        some (sv', k') ∧ 0 < k' := by
    rcases hsel with ⟨hstatic, -⟩ | ⟨hlo, hpos⟩
    · exact semiMaskLoop_static (by omega) (by omega) (by omega) hstatic (max lo start - start)
        (by omega) (by omega)
    · obtain ⟨sv', k', hrun, hk, -⟩ := semiMaskLoop_first start n (min hi (start + n) - start) sv
        (by omega) (by omega) (d + 1) 0 (by omega) (Nat.zero_le _) le_rfl
      refine ⟨sv', k', ?_, hk (by omega)⟩
      rw [range'_succ, Nat.add_zero] at hrun
      rw [Nat.max_eq_right hlo, length_cons, length_range']
      exact hrun
  obtain ⟨sv', k', hrun, hk⟩ := hloop
  refine ⟨(sv'.setSelSize k').setToFiltered, ?_, hk.ne'⟩
  rw [hrun]
  rfl

/-- A vector the mask skips keeps none. -/
lemma applySemiMaskFilter_skip (hsel : SelAt lo f start sv) (hreads : ¬ Reads lo hi f start n) :
    ∃ sv', applySemiMaskFilter ⟨lo, hi⟩ start n sv = some sv' ∧ sv'.selectedSize = 0 ∧
      SelAt lo f start sv' := by
  rw [applySemiMaskFilter, range_eq hsmall]
  by_cases htouched : max lo start < min hi (start + n)
  · have hf : ¬ f < min hi (start + n) - start := fun hf => hreads ⟨htouched, hf⟩
    -- an unfiltered vector would be read
    obtain ⟨hlo, hpos⟩ : lo ≤ start ∧ sv.positionAt 0 = f := by
      rcases hsel with ⟨-, hzero⟩ | h
      · omega
      · exact h
    have hdynamic : sv.state = .dynamic := by
      cases hstate : sv.state with
      | dynamic => rfl
      | static =>
        rw [positionAt, hstate] at hpos
        dsimp only at hpos
        omega
    obtain ⟨sv', k', hrun, -, hskip⟩ := semiMaskLoop_first start n (min hi (start + n) - start) sv
      (by omega) (by omega) (min hi (start + n) - start) 0 (by omega) (Nat.zero_le _) le_rfl
    obtain ⟨rfl, rfl⟩ := hskip (by omega)
    refine ⟨(sv'.setSelSize 0).setToFiltered, ?_, rfl, .inr ⟨hlo, ?_⟩⟩
    · rw [Nat.max_eq_right hlo, length_range']
      rw [Nat.add_zero] at hrun
      rw [if_neg (by rw [List.range'_eq_nil_iff]; omega), hrun]
      rfl
    · rw [positionAt, hdynamic] at hpos
      exact hpos
  · refine ⟨sv.setSelSize 0, ?_, rfl, hsel⟩
    rw [Nat.sub_eq_zero_of_le (by omega), if_pos (List.range'_zero ..)]

end

/-! ### The rows that a transaction reads -/

namespace VersionInfo

variable {cap : ℕ} {vi : VersionInfo cap} {q : ℕ}

/-- No row is inserted, or no row any more, in the vector of row `i`. -/
def noInserted (vi : VersionInfo cap) (i : ℕ) : Bool :=
  (vi.getVectorVersionInfo (i / cap)).any (·.insertionStatus = .noInserted)

/-- A scan of such vectors leaves the selection vector unfiltered. -/
lemma getSelVectorToScan_noInserted (hcap : 0 < cap) (T : Transaction) (hn : 0 < n)
    (h : ∀ i < n, vi.noInserted (q + i)) (sv : SelectionVector) :
    vi.getSelVectorToScan T.startTS T.id sv q n = some (sv.setToUnfiltered 0) := by
  obtain ⟨⟨sv', out⟩, hrun, rfl⟩ := foldlM_vectorSegments hcap
    (f := vi.scanSegment T.startTS T.id) (P := fun _ x => x.1 = sv.setToUnfiltered 0) q hn
    (by
      rintro d v s m ⟨_, out⟩ hrow hm hsm hdm rfl
      have hno := h d (by omega)
      have hv : (q + d) / cap = v := by rw [← hrow, Paging.mul_add_div_of_lt (by omega)]
      rw [noInserted, hv, Option.any_eq_true] at hno
      obtain ⟨vv, hvv, hstatus⟩ := hno
      rw [decide_eq_true_eq] at hstatus
      refine ⟨(sv.setToUnfiltered 0, out + m), ?_, rfl⟩
      simp [scanSegment, hvv, VectorVersionInfo.getSelVectorForScan, hstatus])
    (x := (sv.setToUnfiltered 0, 0)) rfl
  rw [getSelVectorToScan, if_neg (by omega), hrun]
  rfl

end VersionInfo

section View

variable {cap m : ℕ} {K : Type}

/-- A row as a transaction reads it: its primary key, and whether the transaction sees it. There is
no answer when the vector of the row has no insertions. -/
abbrev RowView (K : Type) := K × Option Bool

/-- The transaction sees the row. -/
def RowView.seen (row : RowView K) : Bool := row.2 = some true

/-- The rows of a chunked group as a transaction reads them. -/
structure GroupView (pk : Fin m) (T : Transaction) (start : ℕ) (rows : List (RowView K))
    (g : ChunkedNodeGroup cap m K) : Prop where
  start_eq : g.startRowIdx = start
  numRows_eq : g.numRows = rows.length
  keys : ∀ i < rows.length, (g.chunks pk)[i]? = rows[i]?.map Prod.fst
  versions : match g.versionInfo with
    | none => ∀ row ∈ rows, row.2 = some true
    | some vi => ∃ ck ins del, Rep Lag.none ck rows.length ins del vi ∧
      (∀ row, StampOk (ins row)) ∧ (∀ row, StampOk (del row)) ∧
      ∀ i row, rows[i]? = some row →
        row.2 = if vi.noInserted i then none else some (rowSelected ins del T i)

variable {α : Type} {pk : Fin m} {T : Transaction} {rows : List (RowView K)}
  {g : ChunkedNodeGroup cap m K} {q : ℕ}

/-- A vector without insertions holds no row. -/
lemma eq_none_of_noInserted (hcap : 0 < cap) {ck : Bool} {ins del : ℕ → Option Stamp}
    {vi : VersionInfo cap} {i : ℕ} (h : Rep Lag.none ck n ins del vi) (hno : vi.noInserted i) :
    ins i = none := by
  rw [noInserted, Option.any_eq_true] at hno
  obtain ⟨vv, hvv, hstatus⟩ := hno
  have hrep := h (i / cap)
  rw [hvv] at hrep
  have hnone := (VectorVersionInfo.inserted_of_noInserted hrep.1 (of_decide_eq_true hstatus)).2
    (i % cap) (Nat.mod_lt i hcap)
  rwa [Nat.div_add_mod'] at hnone

/-- What a row's view says is what the scan selects. -/
lemma RowView.seen_eq (hcap : 0 < cap) {vi : VersionInfo cap} {ck : Bool}
    {ins del : ℕ → Option Stamp} (hrep : Rep Lag.none ck n ins del vi) {i : ℕ} {row : RowView K}
    (hrow : row.2 = if vi.noInserted i then none else some (rowSelected ins del T i)) :
    row.seen = rowSelected ins del T i := by
  rw [RowView.seen, hrow]
  split_ifs with hno
  · simp [rowSelected, eq_none_of_noInserted hcap hrep hno]
  · simp

/-- The positions of a vector that the transaction sees. -/
def seenPositions (rows : List (RowView K)) : List ℕ :=
  (range rows.length).filter fun i => rows[i]?.any (·.seen)

/-- The first position of a vector that the transaction sees, or 0. -/
def firstSeen (rows : List (RowView K)) : ℕ := (rows.findIdx? (·.seen)).getD 0

/-- The keys of a vector that the transaction sees. -/
def seenKeys (rows : List (RowView K)) : List K := (rows.filter (·.seen)).map Prod.fst

lemma seenPositions_cons (row : RowView K) (rows : List (RowView K)) :
    seenPositions (row :: rows) =
      (if row.seen then [0] else []) ++ (seenPositions rows).map (· + 1) := by
  rw [seenPositions, length_cons, range_succ_eq_map, filter_cons, filter_map]
  cases hrow : row.seen <;> simp [seenPositions, Function.comp_def, hrow]

/-- The keys at the seen positions. -/
lemma map_seenPositions (rows : List (RowView K)) :
    (seenPositions rows).map (fun i => rows[i]?.map Prod.fst) = (seenKeys rows).map some := by
  induction rows with
  | nil => rfl
  | cons row rows ih =>
    rw [seenPositions_cons, map_append, map_map]
    have htail : (seenPositions rows).map
        ((fun i => (row :: rows)[i]?.map Prod.fst) ∘ (· + 1)) = (seenKeys rows).map some := by
      rw [← ih]
      rfl
    rw [htail]
    cases hrow : row.seen <;> simp [seenKeys, hrow]

lemma head?_seenPositions (h : ∃ row ∈ rows, row.seen = true) :
    (seenPositions rows).head? = some (firstSeen rows) := by
  induction rows with
  | nil => simp at h
  | cons row rows ih =>
    rw [seenPositions_cons, firstSeen, findIdx?_cons]
    cases hrow : row.seen with
    | true => rfl
    | false =>
      have hrest : ∃ row ∈ rows, row.seen = true := by
        obtain ⟨r, hr, hseen⟩ := h
        rcases mem_cons.mp hr with rfl | hr
        · rw [hrow] at hseen
          cases hseen
        · exact ⟨r, hr, hseen⟩
      have hhead := ih hrest
      obtain ⟨i, hi⟩ := Option.isSome_iff_exists.mp (findIdx?_isSome.trans (any_eq_true.mpr hrest))
      simp [hhead, firstSeen, hi]

lemma positionAt_zero {p : ℕ} (h : sv.getSelectedPositions.head? = some p) :
    sv.positionAt 0 = p := by
  rw [getSelectedPositions_eq] at h
  cases hsize : sv.selectedSize with
  | zero => simp [hsize] at h
  | succ size =>
    rw [hsize, range_succ_eq_map] at h
    exact Option.some.inj h

/-- **A scan** returns the keys seen. -/
lemma scan_view (hcap : 0 < cap) (h : GroupView pk T start rows g)
    (q n : ℕ) (hn : 0 < n) (hle : q + n ≤ rows.length) (sv : SelectionVector) :
    ∃ sv' out, g.scan T sv q n = some (sv', out) ∧
      sv'.getSelectedPositions = seenPositions ((rows.drop q).take n) ∧
      out.map (fun row => row.2 pk) = (seenKeys ((rows.drop q).take n)).map some ∧
      ((∀ row ∈ (rows.drop q).take n, row.2 = none) → sv'.state = .static) := by
  have hlen : ((rows.drop q).take n).length = n := by
    rw [length_take, length_drop]
    omega
  have hget : ∀ i < n, ((rows.drop q).take n)[i]? = rows[q + i]? := by
    intro i hi
    rw [getElem?_take_of_lt hi, getElem?_drop]
  have hout : ∀ positions : List ℕ, positions = seenPositions ((rows.drop q).take n) →
      (positions.map fun pos => g.rowAt (q + pos)).map (fun row => row.2 pk) =
        (seenKeys ((rows.drop q).take n)).map some := by
    rintro positions rfl
    rw [map_map, ← map_seenPositions]
    refine map_congr_left fun i hi => ?_
    have hi' : i < n := by
      have := mem_range.mp (mem_filter.mp hi).1
      omega
    show (g.chunks pk)[q + i]? = _
    rw [h.keys _ (by omega), hget i hi']
  have hguard : q + n ≤ g.numRows := by rw [h.numRows_eq]; exact hle
  have hversions := h.versions
  rw [ChunkedNodeGroup.scan]
  cases hvi : g.versionInfo with
  | none =>
    -- without versions every row is selected
    rw [hvi] at hversions
    have hall : seenPositions ((rows.drop q).take n) = range n := by
      rw [seenPositions, hlen, filter_eq_self]
      intro i hi
      have hi' : i < n := mem_range.mp hi
      rw [hget i hi', getElem?_eq_getElem (by omega), Option.any_some]
      exact decide_eq_true (hversions _ (getElem_mem _))
    have hsel : (sv.setToUnfiltered n).getSelectedPositions =
        seenPositions ((rows.drop q).take n) := by
      rw [hall]
      rfl
    refine ⟨sv.setToUnfiltered n, _, ?_, hsel, hout _ hsel, fun _ => rfl⟩
    simp [guard, hguard]
  | some vi =>
    rw [hvi] at hversions
    obtain ⟨ck, ins, del, hrep, hins, hdel, hseen⟩ := hversions
    obtain ⟨sv', hrun, hpos⟩ := VersionInfo.getSelVectorToScan_spec hcap hrep hins hdel T hn hle sv
    have hsel : sv'.getSelectedPositions = seenPositions ((rows.drop q).take n) := by
      rw [hpos, seenPositions, hlen]
      refine filter_congr fun i hi => ?_
      have hi' : i < n := mem_range.mp hi
      have hrow : rows[q + i]? = some rows[q + i] := getElem?_eq_getElem (by omega)
      rw [hget i hi', hrow]
      exact (RowView.seen_eq hcap hrep (hseen _ _ hrow)).symm
    refine ⟨sv', _, ?_, hsel, hout _ hsel, fun hnone => ?_⟩
    · simp [guard, hguard, hrun]
    · -- nothing is inserted in the vectors that are read
      have hno : ∀ i < n, vi.noInserted (q + i) := by
        intro i hi
        have hrow : rows[q + i]? = some rows[q + i] := getElem?_eq_getElem (by omega)
        have hrow' := hnone _ (mem_of_getElem? ((hget i hi).trans hrow))
        rw [hseen _ _ hrow] at hrow'
        by_contra hne
        simp [hne] at hrow'
      rw [getSelVectorToScan_noInserted hcap T hn hno] at hrun
      obtain rfl := Option.some.inj hrun
      rfl

/-! ### The vectors of a node group -/

/-- The vectors in which the rows of a group are read, with the offsets where they start. -/
def vectors {α : Type} (cap start : ℕ) (rows : List α) : List (ℕ × List α) :=
  if _h : rows = [] ∨ cap = 0 then []
  else (start, rows.take cap) :: vectors cap (start + min rows.length cap) (rows.drop cap)
termination_by rows.length
decreasing_by
  rw [not_or] at _h
  have := length_pos_iff.mpr _h.1
  rw [length_drop]
  omega

@[simp] lemma vectors_nil (cap start : ℕ) : vectors cap start ([] : List α) = [] := by
  rw [vectors, dif_pos (.inl rfl)]

lemma vectors_of_ne {cap : ℕ} (hcap : 0 < cap) (start : ℕ) {rows : List α}
    (h : rows ≠ []) : vectors cap start rows =
      (start, rows.take cap) :: vectors cap (start + min rows.length cap) (rows.drop cap) := by
  rw [vectors, dif_neg (by rw [not_or]; exact ⟨h, hcap.ne'⟩)]

/-- The vectors from a row on. -/
lemma vectors_drop {cap : ℕ} (hcap : 0 < cap) (start : ℕ) {rows : List α}
    (hq : q < rows.length) : vectors cap (start + q) (rows.drop q) =
      (start + q, (rows.drop q).take cap) ::
        vectors cap (start + (q + ((rows.drop q).take cap).length))
          (rows.drop (q + ((rows.drop q).take cap).length)) := by
  have hne : rows.drop q ≠ [] := by
    rw [Ne, drop_eq_nil_iff]
    omega
  have hdrop : (rows.drop q).drop cap = rows.drop (q + ((rows.drop q).take cap).length) := by
    rw [drop_drop, length_take, length_drop]
    by_cases hle : cap ≤ rows.length - q
    · rw [Nat.min_eq_left hle]
    · rw [drop_of_length_le (by omega), drop_of_length_le (by omega)]
  rw [vectors_of_ne hcap _ hne, hdrop, length_take, Nat.min_comm, Nat.add_assoc]

/-- The vectors of consecutive groups. -/
def groupVectors {α : Type} (cap : ℕ) : ℕ → List (List α) → List (ℕ × List α)
  | _, [] => []
  | start, rows :: rss => vectors cap start rows ++ groupVectors cap (start + rows.length) rss

/-- The vectors that are read, when `f` is the first position in the selection vector before; and
this position after them. -/
def readVectors (lo hi : ℕ) : ℕ → List (ℕ × List (RowView K)) → ℕ × List (List (RowView K))
  | f, [] => (f, [])
  | f, (start, w) :: vs =>
    if Reads lo hi f start w.length then
      ((readVectors lo hi (firstSeen w) vs).1, w :: (readVectors lo hi (firstSeen w) vs).2)
    else readVectors lo hi f vs

/-- Vectors are read in order. -/
lemma readVectors_append (lo hi : ℕ) (vs vs' : List (ℕ × List (RowView K))) : ∀ f,
    readVectors lo hi f (vs ++ vs') =
      ((readVectors lo hi (readVectors lo hi f vs).1 vs').1,
        (readVectors lo hi f vs).2 ++ (readVectors lo hi (readVectors lo hi f vs).1 vs').2) := by
  induction vs with
  | nil => exact fun f => rfl
  | cons v vs ih =>
    intro f
    obtain ⟨start, w⟩ := v
    rw [cons_append, readVectors, readVectors]
    split_ifs
    · rw [ih]
      rfl
    · exact ih f

lemma readVectors_nil_cons (lo hi f start : ℕ) (vs : List (ℕ × List (RowView K))) :
    readVectors lo hi f ((start, []) :: vs) = readVectors lo hi f vs := by
  rw [readVectors, if_neg]
  rintro ⟨htouched, -⟩
  rw [length_nil] at htouched
  omega

/-- The transaction sees a row of every vector that holds rows of the record, unless the vector has
no insertions any more. -/
def SeesRecord (lo hi : ℕ) (vs : List (ℕ × List (RowView K))) : Prop :=
  ∀ v ∈ vs, max lo v.1 < min hi (v.1 + v.2.length) →
    (∃ row ∈ v.2, row.seen = true) ∨ ∀ row ∈ v.2, row.2 = none

/-- Consecutive groups as a transaction reads them. -/
def GroupsView (pk : Fin m) (T : Transaction) :
    ℕ → List (ChunkedNodeGroup cap m K) → List (List (RowView K)) → Prop
  | _, [], [] => True
  | start, g :: gs, rows :: rss =>
    GroupView pk T start rows g ∧ GroupsView pk T (start + rows.length) gs rss
  | _, _, _ => False

lemma GroupsView.sum_numRows : ∀ {gs : List (ChunkedNodeGroup cap m K)} {start : ℕ}
    {rss : List (List (RowView K))}, GroupsView pk T start gs rss →
    (gs.map (·.numRows)).sum = (rss.map List.length).sum := by
  intro gs
  induction gs with
  | nil =>
    intro start rss h
    cases rss with
    | nil => rfl
    | cons rows rss => exact h.elim
  | cons g gs ih =>
    intro start rss h
    cases rss with
    | nil => exact h.elim
    | cons rows rss =>
      rw [map_cons, sum_cons, map_cons, sum_cons, h.1.numRows_eq, ih h.2]

/-- A node group as a transaction reads it: the row where its first group starts, and the rows of
its groups.  It has room for its rows. -/
def NodeGroupView (nodeGroupSize : ℕ) (pk : Fin m) (T : Transaction)
    (view : ℕ × List (List (RowView K))) (ng : NodeGroup cap m K) : Prop :=
  GroupsView pk T view.1 ng.chunkedGroups view.2 ∧
    view.1 + (view.2.map List.length).sum ≤ nodeGroupSize

/-- The vectors of the table, from node group `nodeGroupIdx` on. -/
def tableVectors (cap nodeGroupSize : ℕ) :
    ℕ → List (ℕ × List (List (RowView K))) → List (ℕ × List (RowView K))
  | _, [] => []
  | nodeGroupIdx, view :: views =>
    groupVectors cap (nodeGroupIdx * nodeGroupSize + view.1) view.2 ++
      tableVectors cap nodeGroupSize (nodeGroupIdx + 1) views

/-- A later vector sees the same selection. -/
lemma SelAt.mono {start' : ℕ} (h : SelAt lo f start sv)
    (hle : start ≤ start') : SelAt lo f start' sv := by
  rcases h with h | ⟨hlo, hpos⟩
  · exact .inl h
  · exact .inr ⟨hlo.trans hle, hpos⟩

/-- One vector of the masked scan. -/
lemma scanSemiMask_step (hcap : 0 < cap) {hi : ℕ}
    {ng : NodeGroup cap m K} {idx idx' next base s : ℕ} {g0 : ChunkedNodeGroup cap m K}
    (hg0 : ng.chunkedGroups[idx]? = some g0) (hg : ng.chunkedGroups[idx']? = some g)
    (hidx : (if g0.numRows + g0.startRowIdx ≤ next then idx + 1 else idx) = idx')
    (hview : GroupView pk T s rows g) (hnext : next = s + q) (hq : q ≤ rows.length)
    (hsmall : next + base + ((rows.drop q).take cap).length < 2 ^ 32)
    (hsel : SelAt lo f (next + base) sv)
    (hseen : SeesRecord lo hi [(next + base, (rows.drop q).take cap)]) :
    ∃ sv' out, ng.scanSemiMask T ⟨lo, hi⟩ base ⟨idx, next, sv⟩ =
        some (⟨idx', next + ((rows.drop q).take cap).length, sv'⟩, some out) ∧
      SelAt lo (readVectors lo hi f [(next + base, (rows.drop q).take cap)]).1
        (next + ((rows.drop q).take cap).length + base) sv' ∧
      out.map (fun row => row.2 pk) =
        ((readVectors lo hi f [(next + base, (rows.drop q).take cap)]).2.flatMap seenKeys).map
          some := by
  set w := (rows.drop q).take cap with hw
  have hlen : min (rows.length - q) cap = w.length := by
    rw [hw, List.length_take, List.length_drop, Nat.min_comm]
  have hlt : idx' < ng.chunkedGroups.length := (List.getElem?_eq_some_iff.mp hg).1
  have hstart := hview.start_eq
  have hsub : next - g.startRowIdx = q := by omega
  unfold NodeGroup.scanSemiMask
  simp only [hg0, bind_eq_bind, bind_some, hidx, if_neg (Nat.not_le.mpr hlt), hg,
    guard, if_pos (show g.startRowIdx ≤ next by omega), hsub, hview.numRows_eq, hlen,
    Option.pure_def]
  by_cases hreads : Reads lo hi f (next + base) w.length
  -- the vector is read
  · obtain ⟨sv1, hfilter, hsize⟩ := applySemiMaskFilter_read hsmall hsel hreads
    have hn : 0 < w.length := by
      have := hreads.1
      omega
    obtain ⟨sv', out, hscan, hpos, hout, hstatic⟩ :=
      scan_view hcap hview q w.length hn (by omega) sv1
    have hw' : (rows.drop q).take w.length = w := by
      rw [hw, length_take, take_eq_take_iff]
      simp
    rw [hw'] at hpos hout hstatic
    refine ⟨sv', out, ?_, ?_, ?_⟩
    · simp [hfilter, hsize, hscan]
    · rw [readVectors, if_pos hreads]
      -- a row is seen, or the vector has no insertions
      rcases hseen _ mem_cons_self hreads.1 with hsome | hnone
      · refine .inr ⟨?_, positionAt_zero (hpos ▸ head?_seenPositions hsome)⟩
        have := hreads.1
        omega
      · refine .inl ⟨hstatic hnone, ?_⟩
        have hfirst : w.findIdx? (·.seen) = none :=
          findIdx?_eq_none_iff.mpr fun row hrow => by simp [RowView.seen, hnone row hrow]
        rw [readVectors, firstSeen, hfirst]
        rfl
    · rw [readVectors, if_pos hreads, hout]
      simp [readVectors]
  -- the vector is skipped
  · obtain ⟨sv1, hfilter, hsize, hsel1⟩ := applySemiMaskFilter_skip hsmall hsel hreads
    refine ⟨sv1, [], ?_, ?_, ?_⟩
    · simp [hfilter, hsize]
    · rw [readVectors, if_neg hreads]
      exact hsel1.mono (by omega)
    · rw [readVectors, if_neg hreads]
      rfl

end View

end Ladybug
