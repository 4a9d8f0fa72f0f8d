import Mathlib.Data.Finset.Card
import Ladybug.Lib.Fold
import Ladybug.Lib.Paging
import Ladybug.Storage.UpdateHistory

/-!
# Correctness of the reads of `UpdateInfo`

`readRow` is what the chain of a row says: the entry of the newest version that the transaction
reads and that holds the row. Every read of the code writes `readRow` over its output and leaves
the rest of the output alone:

* `iterateScan_spec`: `scan` and `scanCommitted`, over any range of rows;
* `lookup_spec`.

The last section says what the other operations do to the chains.
-/

namespace Ladybug

open List Function UpdateInfo
open UpdateInfo (chain)

variable {V W : Type}

/-- The first entry of a list of rows and values for a row. -/
def findRow (rows : List (ℕ × V)) (row : ℕ) : Option V :=
  (rows.find? fun r => r.1 == row).map Prod.snd

@[simp] lemma findRow_nil (row : ℕ) : findRow ([] : List (ℕ × V)) row = none := rfl

lemma findRow_cons (r : ℕ × V) (rows : List (ℕ × V)) (row : ℕ) :
    findRow (r :: rows) row = if r.1 = row then some r.2 else findRow rows row := by
  unfold findRow
  rw [find?_cons]
  by_cases h : r.1 = row
  · simp [h]
  · have hb : (r.1 == row) = false := by simpa using h
    simp [h, hb]

/-- A lookup finds the first entry of the row. -/
lemma VectorUpdateInfo.lookup_eq (info : VectorUpdateInfo V) (row : ℕ) :
    info.lookup row = findRow info.rows row := rfl

/-- What the newest readable version with row `i` says. -/
def readChain (T : Transaction) (c : List (VectorUpdateInfo V)) (i : ℕ) : Option V :=
  (c.filter (VectorUpdateInfo.readableBy T)).findSome? (VectorUpdateInfo.lookup · i)

/-- What the updates say about a row of the chunk. -/
def UpdateInfo.readRow (ui : UpdateInfo V) (cap : ℕ) (T : Transaction) (row : ℕ) : Option V :=
  readChain T (ui.chain (row / cap)) (row % cap)

@[simp] lemma readChain_nil (T : Transaction) (i : ℕ) :
    readChain T ([] : List (VectorUpdateInfo V)) i = none := rfl

lemma readChain_cons (T : Transaction) (info : VectorUpdateInfo V)
    (c : List (VectorUpdateInfo V)) (i : ℕ) :
    readChain T (info :: c) i =
      if info.readableBy T then (info.lookup i).or (readChain T c i) else readChain T c i := by
  rw [readChain, filter_cons]
  split_ifs
  · rw [findSome?_cons]
    cases info.lookup i <;> rfl
  · rfl

/-! ### One vector -/

/-- The state of the scan of one vector: `f` gives the values found so far, by the position in the
scanned part of the vector. -/
structure ScanState (e : V → W) (output : ℕ → W) (pos num : ℕ) (f : ℕ → Option V)
    (s : (ℕ → W) × List ℕ) : Prop where
  mem : ∀ u, u ∈ s.2 ↔ (f u).isSome
  nodup : s.2.Nodup
  lt : ∀ u ∈ s.2, u < num
  out : ∀ p, s.1 p =
    if pos ≤ p ∧ p < pos + num then ((f (p - pos)).map e).getD (output p) else output p

variable {cap endOffset pos startOffset start num : ℕ} {e : V → W} {output : ℕ → W}
  {T : Transaction} {s : (ℕ → W) × List ℕ} {f : ℕ → Option V} {ui : UpdateInfo V}

lemma ScanState.congr {g : ℕ → Option V} (h : ScanState e output pos num f s)
    (hfg : ∀ u, f u = g u) :
    ScanState e output pos num g s := funext hfg ▸ h

/-- `readFromRowFunc` of `scan` and `scanCommitted`, where the output holds `e` of the values. -/
def writeOutput (e : V → W) (output : ℕ → W) (value : V) (pos : ℕ) : ℕ → W :=
  Function.update output pos (e value)

lemma mem_of_nodup_of_length {l : List ℕ} {n u : ℕ} (hnodup : l.Nodup) (hlt : ∀ u ∈ l, u < n)
    (hlen : l.length = n) (hu : u < n) : u ∈ l := by
  have hsub : l <+~ range n := subperm_of_subset hnodup fun x hx => mem_range.mpr (hlt x hx)
  have hperm : l ~ range n := hsub.perm_of_length_le (by simp [hlen])
  exact hperm.mem_iff.mpr (mem_range.mpr hu)

section

variable (h : ScanState e output pos (endOffset - startOffset) f s)

include h

/-- Scanning the rows of a version. -/
lemma scanRows_spec (rows : List (ℕ × V)) :
    ScanState e output pos (endOffset - startOffset)
      (fun u => (f u).or
        (if u < endOffset - startOffset then findRow rows (startOffset + u) else none))
      (scanRows startOffset endOffset pos (writeOutput e) rows s) := by
  induction rows generalizing f s with
  | nil => exact h.congr fun u => by simp
  | cons r rows ih =>
    obtain ⟨row, value⟩ := r
    obtain ⟨out, upd⟩ := s
    unfold scanRows
    by_cases hrange : row < startOffset ∨ endOffset ≤ row
    -- a row outside the range is passed over
    · rw [if_pos hrange]
      refine (ih h).congr fun u => ?_
      split_ifs with hu
      · rw [findRow_cons, if_neg (show ¬row = startOffset + u by omega)]
      · rfl
    rw [if_neg hrange]
    split_ifs with hupd
    · refine (ih h).congr fun u => ?_
      split_ifs with hu
      · rw [findRow_cons]
        split_ifs with hrow
        · -- the row has been written by a newer version
          have hu' : row - startOffset = u := by simp only at hrow; omega
          obtain ⟨v, hv⟩ := Option.isSome_iff_exists.mp ((h.mem u).mp (hu' ▸ hupd))
          simp [hv]
        · rfl
      · rfl
    -- the row is written to the output
    · set u0 := row - startOffset
      have hnone : f u0 = none := by
        rw [← Option.not_isSome_iff_eq_none, ← h.mem]
        exact hupd
      have hnew : ScanState e output pos (endOffset - startOffset) (update f u0 (some value))
          (writeOutput e out value (pos + u0), u0 :: upd) := by
        refine ⟨fun u => ?_, nodup_cons.mpr ⟨hupd, h.nodup⟩, fun u hu => ?_, fun p => ?_⟩
        · by_cases hu : u = u0
          · simp [hu]
          · simp [hu, h.mem u]
        · rcases mem_cons.mp hu with rfl | hu
          · omega
          · exact h.lt u hu
        · simp only [writeOutput]
          by_cases hp : p = pos + u0
          · subst hp
            rw [update_self, if_pos (by omega), Nat.add_sub_cancel_left,
              update_self, Option.map_some, Option.getD_some]
          · have hout : out p = _ := h.out p
            rw [update_of_ne hp, hout]
            split_ifs with hin
            · rw [update_of_ne (by omega)]
            · rfl
      refine (ih hnew).congr fun u => ?_
      by_cases hu : u = u0
      · subst hu
        have hrow : row = startOffset + u0 := by omega
        have hlt : u0 < endOffset - startOffset := by omega
        simp [hnone, hlt, findRow_cons, ← hrow]
      · rw [update_of_ne hu]
        split_ifs with hlt
        · rw [findRow_cons, if_neg (show ¬row = startOffset + u by omega)]
        · rfl

/-- Both scan loops write the rows of the version. -/
lemma scanVersion_spec (info : VectorUpdateInfo V) :
    ScanState e output pos (endOffset - startOffset)
      (fun u => (f u).or
        (if u < endOffset - startOffset then info.lookup (startOffset + u) else none))
      (scanVersion startOffset endOffset pos (writeOutput e) s info) := by
  unfold scanVersion
  split_ifs with hempty hfull
  · refine h.congr fun u => ?_
    rw [VectorUpdateInfo.lookup_eq, length_eq_zero_iff.mp hempty]
    simp
  · -- every row of the scanned part has been written by a newer version
    refine h.congr fun u => ?_
    split_ifs with hu
    · have hmem := mem_of_nodup_of_length h.nodup h.lt hfull hu
      obtain ⟨v, hv⟩ := Option.isSome_iff_exists.mp ((h.mem u).mp hmem)
      simp [hv]
    · simp
  · exact scanRows_spec h info.rows

/-- Newer versions are not overwritten by older ones. -/
lemma foldl_scanVersion_spec (T : Transaction) (c : List (VectorUpdateInfo V)) :
    ScanState e output pos (endOffset - startOffset)
      (fun u => (f u).or
        (if u < endOffset - startOffset then readChain T c (startOffset + u) else none))
      (c.foldl (fun s current => if current.readableBy T then
        scanVersion startOffset endOffset pos (writeOutput e) s current else s) s) := by
  induction c generalizing f s with
  | nil => exact h.congr fun u => by simp
  | cons info c ih =>
    rw [foldl_cons]
    split_ifs with hread
    · refine (ih (scanVersion_spec h info)).congr fun u => ?_
      rw [readChain_cons, if_pos hread]
      split_ifs
      · rw [Option.or_assoc]
      · simp
    · refine (ih h).congr fun u => ?_
      rw [readChain_cons, if_neg hread]

end

/-- Scanning part of a vector. -/
lemma scanVector_spec (ui : UpdateInfo V) (T : Transaction)
    (idx startOffset endOffset pos : ℕ) (e : V → W) (output : ℕ → W) (p : ℕ) :
    ui.scanVector T idx startOffset endOffset pos (writeOutput e) output p =
      if pos ≤ p ∧ p < pos + (endOffset - startOffset) then
        ((readChain T (ui.chain idx) (startOffset + (p - pos))).map e).getD (output p)
      else output p := by
  have hinit : ScanState e output pos (endOffset - startOffset) (fun _ => none) (output, []) :=
    ⟨fun u => by simp, nodup_nil, by simp, fun p => by simp⟩
  have h := (foldl_scanVersion_spec hinit T (ui.chain idx)).out p
  unfold scanVector iterateVectorInfo
  rw [h]
  split_ifs with hp hlt
  · rfl
  · omega
  · rfl

/-! ### A range of rows -/

/-- The output of `iterateScan` after `m` rows. -/
def ScannedRows (ui : UpdateInfo V) (cap : ℕ) (T : Transaction) (start pos : ℕ) (e : V → W)
    (output : ℕ → W) (m : ℕ) (s : (ℕ → W) × ℕ) : Prop :=
  s.2 = pos + m ∧ ∀ p, s.1 p =
    if pos ≤ p ∧ p < pos + m then ((ui.readRow cap T (start + (p - pos))).map e).getD (output p)
    else output p

/-- One vector: the rows from `idx * cap + lo` to `idx * cap + hi` follow the ones scanned. -/
lemma ScannedRows.scanVector {m m' idx lo hi : ℕ} {s : (ℕ → W) × ℕ}
    (h : ScannedRows ui cap T start pos e output m s) (hlo : start + m = idx * cap + lo)
    (hhi : start + m' = idx * cap + hi) (hle : lo ≤ hi) (hcap : hi ≤ cap) :
    ScannedRows ui cap T start pos e output m'
      (ui.scanVector T idx lo hi s.2 (writeOutput e) s.1, s.2 + (hi - lo)) := by
  obtain ⟨hpos, hout⟩ := h
  refine ⟨by simp only; omega, fun p => ?_⟩
  simp only
  rw [scanVector_spec, hpos, hout p]
  by_cases hnew : pos + m ≤ p ∧ p < pos + m + (hi - lo)
  · have hrow : start + (p - pos) = idx * cap + (lo + (p - (pos + m))) := by omega
    rw [if_pos hnew, if_neg (by omega), if_pos (by omega), readRow, hrow,
      Paging.mul_add_div_of_lt (by omega), Nat.mul_add_mod_of_lt (by omega)]
  · rw [if_neg hnew]
    by_cases hold : pos ≤ p ∧ p < pos + m
    · rw [if_pos hold, if_pos (by omega)]
    · rw [if_neg hold, if_neg (by omega)]

/-- Scanning the vectors one after the other. -/
lemma foldl_scanVector_spec (hcap : 0 < cap) (j k : ℕ) {s : (ℕ → W) × ℕ}
    (hlen : start / cap + k + j = (start + num) / cap + 1)
    (h : ScannedRows ui cap T start pos e output
      (min (start + num) ((start / cap + k) * cap) - start) s) :
    ScannedRows ui cap T start pos e output num
      ((List.range' (start / cap + k) j).foldl
        (fun (s, posInVector) idx =>
          let startOffset := if idx = start / cap then start % cap else 0
          let endOffset := if idx = (start + num) / cap then (start + num) % cap else cap
          (ui.scanVector T idx startOffset endOffset posInVector (writeOutput e) s,
            posInVector + (endOffset - startOffset))) s) := by
  have hstart := Nat.div_add_mod' start cap
  have hend := Nat.div_add_mod' (start + num) cap
  have hstartlt := Nat.mod_lt start hcap
  have hendlt := Nat.mod_lt (start + num) hcap
  generalize start / cap = first at *
  generalize (start + num) / cap = last at *
  induction j generalizing k s with
  | zero =>
    -- all vectors are done: the last one ends behind the range
    have hdone : (first + k) * cap = last * cap + cap := by
      rw [show first + k = last + 1 by omega, Nat.succ_mul]
    rwa [show min (start + num) ((first + k) * cap) - start = num by omega] at h
  | succ j ih =>
    rw [List.range'_succ, foldl_cons]
    refine ih (k + 1) ?_ (by omega)
    have hsucc : (first + (k + 1)) * cap = (first + k) * cap + cap := by
      rw [← Nat.add_assoc, Nat.succ_mul]
    have hfirst : k ≠ 0 → first * cap + cap ≤ (first + k) * cap := fun hk => by
      rw [← Nat.succ_mul]
      exact Nat.mul_le_mul_right _ (by omega)
    have hnext : first + k ≠ last → (first + k) * cap + cap ≤ last * cap := fun hk => by
      rw [← Nat.succ_mul]
      exact Nat.mul_le_mul_right _ (by omega)
    have hzero : k = 0 → (first + k) * cap = first * cap := by rintro rfl; rfl
    have heq : first + k = last → (first + k) * cap = last * cap := by rintro rfl; rfl
    refine h.scanVector ?_ ?_ ?_ ?_ <;> split_ifs <;> omega

/-- **A scan** reads each row's newest readable version. -/
lemma iterateScan_spec (ui : UpdateInfo V) (hcap : 0 < cap) (T : Transaction)
    (start num pos : ℕ) (e : V → W) (output : ℕ → W) (p : ℕ) :
    ui.iterateScan cap T start num pos (writeOutput e) output p =
      if pos ≤ p ∧ p < pos + num then
        ((ui.readRow cap T (start + (p - pos))).map e).getD (output p)
      else output p := by
  unfold iterateScan
  by_cases hempty : ui.updates.isEmpty
  · have hnil : ui.updates = [] := isEmpty_iff.mp hempty
    simp [readRow, chain, hnil]
  · rw [if_neg hempty]
    have hle : start / cap ≤ (start + num) / cap := Nat.div_le_div_right (by omega)
    have hinit : ScannedRows ui cap T start pos e output
        (min (start + num) ((start / cap + 0) * cap) - start) (output, pos) := by
      have : start / cap * cap ≤ start := Nat.div_mul_le_self start cap
      rw [Nat.add_zero, show min (start + num) (start / cap * cap) - start = 0 by omega]
      exact ⟨rfl, fun p => by rw [if_neg (by omega)]⟩
    exact (foldl_scanVector_spec hcap ((start + num) / cap + 1 - start / cap) 0
      (by omega) hinit).2 p

lemma scan_spec (ui : UpdateInfo V) (hcap : 0 < cap) (T : Transaction)
    (output : ℕ → V) (offsetInChunk length p : ℕ) :
    ui.scan cap T output offsetInChunk length p =
      if p < length then (ui.readRow cap T (offsetInChunk + p)).getD (output p) else output p := by
  have h := iterateScan_spec ui hcap T offsetInChunk length 0 id output p
  simp only [Nat.zero_le, true_and, Nat.zero_add, Nat.sub_zero, Option.map_id, id_eq] at h
  exact h

lemma scanCommitted_spec (ui : UpdateInfo V) (hcap : 0 < cap) (T : Transaction)
    (output : ℕ → V) (startOffsetInOutput startRowScanned numRows p : ℕ) :
    ui.scanCommitted cap T output startOffsetInOutput startRowScanned numRows p =
      if startOffsetInOutput ≤ p ∧ p < startOffsetInOutput + numRows then
        (ui.readRow cap T (startRowScanned + (p - startOffsetInOutput))).getD (output p)
      else output p := by
  have h := iterateScan_spec ui hcap T startRowScanned numRows startOffsetInOutput id output p
  rw [Option.map_id, id_eq] at h
  exact h

/-! ### One row -/

/-- The first readable version of the row is taken. -/
lemma foldl_lookup_spec (T : Transaction) (i pos : ℕ) (c : List (VectorUpdateInfo V))
    (output : ℕ → V) (updated : Bool) :
    (c.foldl (fun (s : (ℕ → V) × Bool) current => if current.readableBy T then
      (if s.2 then s
        else match current.lookup i with
          | some value => (update s.1 pos value, true)
          | none => s) else s) (output, updated)).1 =
      if updated then output
      else update output pos ((readChain T c i).getD (output pos)) := by
  induction c generalizing output updated with
  | nil => cases updated <;> simp
  | cons info c ih =>
    rw [foldl_cons, readChain_cons]
    by_cases hread : info.readableBy T = true
    · rw [if_pos hread, if_pos hread]
      cases updated
      · cases hl : info.lookup i with
        | none => simpa using ih output false
        | some value => simpa using ih (update output pos value) true
      · simpa using ih output true
    · rw [if_neg hread, if_neg hread]
      exact ih output updated

/-- **A lookup** reads the newest readable version. -/
lemma lookup_spec (ui : UpdateInfo V) (cap : ℕ) (T : Transaction) (rowInChunk : ℕ)
    (output : ℕ → V) (posInOutputVector : ℕ) :
    ui.lookup cap T rowInChunk output posInOutputVector =
      update output posInOutputVector
        ((ui.readRow cap T rowInChunk).getD (output posInOutputVector)) := by
  unfold UpdateInfo.lookup
  split_ifs with hempty
  · have hnil : ui.updates = [] := isEmpty_iff.mp hempty
    simp [readRow, chain, hnil]
  · exact foldl_lookup_spec T (rowInChunk % cap) posInOutputVector _ output false

/-! ### Changes of the chains -/

section chains

variable (ui : UpdateInfo V)

@[simp] lemma chain_getOrCreateUpdateNode (vectorIdx u : ℕ) :
    (ui.getOrCreateUpdateNode vectorIdx).chain u = ui.chain u := by
  unfold chain getOrCreateUpdateNode
  simp only [getD_eq_getElem?_getD]
  by_cases hu : u < ui.updates.length
  · rw [getElem?_append_left hu]
  · rw [getElem?_append_right (by omega), getElem?_replicate, getElem?_eq_none (by omega)]
    split_ifs <;> rfl

lemma lt_length_getOrCreateUpdateNode (vectorIdx : ℕ) :
    vectorIdx < (ui.getOrCreateUpdateNode vectorIdx).updates.length := by
  simp only [getOrCreateUpdateNode, length_append, length_replicate]
  omega

variable {ui} {vectorIdx i : ℕ} {c : List (VectorUpdateInfo V)}

lemma chain_setChain (hlt : vectorIdx < ui.updates.length) (c : List (VectorUpdateInfo V)) (u : ℕ) :
    (ui.setChain vectorIdx c).chain u = if u = vectorIdx then c else ui.chain u := by
  unfold chain setChain
  simp only [getD_eq_getElem?_getD, getElem?_set]
  by_cases hu : u = vectorIdx
  · subst hu
    simp [hlt]
  · rw [if_neg (Ne.symm hu), if_neg hu]

lemma lt_length_of_mem_chain {info : VectorUpdateInfo V}
    (h : info ∈ ui.chain vectorIdx) : vectorIdx < ui.updates.length := by
  by_contra hle
  rw [chain, getD_eq_getElem?_getD, getElem?_eq_none (by omega)] at h
  simp at h

/-- The version of a chain that keeps `T` from updating a row. -/
def VectorUpdateInfo.conflictsWith (T : Transaction) (i : ℕ) (info : VectorUpdateInfo V) : Prop :=
  info.version ≠ T.id ∧ T.startTS < info.version ∧ info.hasRow i = true

/-- A conflicting version is an error. -/
lemma findVersion_error (h : ∃ info ∈ c, info.conflictsWith T i) (acc : Option ℕ) :
    findVersion T i c acc = .error updateConflict := by
  induction c generalizing acc with
  | nil => simp at h
  | cons x c ih =>
    unfold findVersion
    obtain ⟨info, hmem, hne, hlt, hrow⟩ := h
    rcases mem_cons.mp hmem with rfl | hmem
    · rw [if_neg hne, if_pos hlt, if_pos hrow]
    · have ih := ih ⟨info, hmem, hne, hlt, hrow⟩
      split_ifs
      · exact ih _
      · rfl
      · exact ih _
      · exact ih _

/-- Without a conflict the traversal gives the address of the transaction's own version. -/
lemma findVersion_ok (h : ∀ info ∈ c, ¬info.conflictsWith T i) {p : ℕ}
    (hp : ∀ info ∈ c, info.version = T.id → info.ptr = p) (acc : Option ℕ) :
    findVersion T i c acc = .ok (if ∃ info ∈ c, info.version = T.id then some p else acc) := by
  induction c generalizing acc with
  | nil => simp [findVersion]
  | cons x c ih =>
    have ih := ih (fun info hm => h info (mem_cons_of_mem _ hm))
      (fun info hm => hp info (mem_cons_of_mem _ hm))
    have hx := h x mem_cons_self
    unfold findVersion
    simp only [mem_cons, exists_eq_or_imp]
    by_cases hown : x.version = T.id
    · rw [if_pos hown, ih, hp x mem_cons_self hown]
      simp [hown]
    · rw [if_neg hown]
      simp only [hown, false_or]
      by_cases hlt : T.startTS < x.version
      · rw [if_pos hlt, if_neg fun hrow => hx ⟨hown, hlt, hrow⟩, ih]
      · rw [if_neg hlt, ih]

/-- Committing stamps the version. -/
lemma UpdateInfo.commit_spec {ptr : ℕ} (ts : ℕ) (h : ∃ info ∈ ui.chain vectorIdx, info.ptr = ptr) :
    ∃ ui', ui.commit vectorIdx ptr ts = some ui' ∧ ui'.nextPtr = ui.nextPtr ∧
      ∀ u, ui'.chain u = if u = vectorIdx then (ui.chain u).map fun info =>
        if info.ptr = ptr then { info with version := ts } else info else ui.chain u := by
  obtain ⟨info, hmem, hptr⟩ := h
  have hlt := lt_length_of_mem_chain hmem
  rw [commit, if_pos ⟨hlt, any_eq_true.mpr ⟨info, hmem, by simpa using hptr⟩⟩]
  refine ⟨_, rfl, rfl, fun u => ?_⟩
  rw [chain_setChain hlt]
  split_ifs with hu
  · rw [hu]
  · rfl

/-- Rolling back removes the version. -/
lemma UpdateInfo.rollback_spec (hlt : vectorIdx < ui.updates.length) (version : ℕ) :
    ∃ ui', ui.rollback vectorIdx version = some ui' ∧ ui'.nextPtr = ui.nextPtr ∧
      ui'.updates.length = ui.updates.length ∧
      ∀ u, ui'.chain u = if u = vectorIdx then
        (ui.chain u).eraseP (fun info => info.version == version) else ui.chain u := by
  rw [rollback, if_pos hlt]
  refine ⟨_, rfl, rfl, by simp [setChain], fun u => ?_⟩
  rw [chain_setChain hlt]
  split_ifs with hu
  · rw [hu]
  · rfl

end chains

end Ladybug
