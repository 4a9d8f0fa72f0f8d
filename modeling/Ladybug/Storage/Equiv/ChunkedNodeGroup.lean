import Ladybug.Storage.NodeGroup
import Ladybug.Storage.Equiv.VersionInfo

/-!
# Correctness of one chunked group

`GroupRep` says which rows a chunked group shows, and `MemRep` that its chunks hold nothing else.

* `append_spec`: an append keeps `MemRep`.
* `scan_spec` and `lookup_spec`: what a group shows is read from it.
-/

namespace Ladybug

open Mvcc VersionInfo List

variable {cap m : ℕ} {V : Type}

/-! ### The rows of a chunked group -/

/-- A row: who inserted it, and its values. -/
abbrev StampedRow (m : ℕ) (V : Type) := Stamp × (Fin m → V)

def stamped (s : Stamp) (rows : List (Fin m → V)) : List (StampedRow m V) := rows.map (Prod.mk s)

@[simp] lemma length_stamped (s : Stamp) (rows : List (Fin m → V)) :
    (stamped s rows).length = rows.length := length_map ..

@[simp] lemma map_snd_stamped (s : Stamp) (rows : List (Fin m → V)) :
    (stamped s rows).map Prod.snd = rows := by
  rw [stamped, map_map]
  exact map_id _

lemma stamped_append (s : Stamp) (rows rows' : List (Fin m → V)) :
    stamped s (rows ++ rows') = stamped s rows ++ stamped s rows' := map_append ..

/-- The insertion stamps of the rows. -/
def insOf (rows : List (StampedRow m V)) (row : ℕ) : Option Stamp := rows[row]?.map Prod.fst

/-- The version info of a group with these rows: without version info every transaction sees
them. -/
def VersionsRep (rows : List (StampedRow m V)) : Option (VersionInfo cap) → Prop
  | none => ∀ row ∈ rows, row.1 = .committed 0
  | some vi => Rep Lag.none false rows.length (insOf rows) (fun _ => none) vi

/-- The group shows the rows `rows`, from row `start` of the node group on.  Its chunks may hold
values behind them. -/
structure GroupRep (start : ℕ) (rows : List (StampedRow m V)) (g : ChunkedNodeGroup cap m V) :
    Prop where
  start_eq : g.startRowIdx = start
  numRows_eq : g.numRows = rows.length
  chunks_take : ∀ c, (g.chunks c).take rows.length = rows.map (·.2 c)
  versions : VersionsRep rows g.versionInfo

/-- A group in memory whose chunks hold the values of its rows and nothing else. -/
structure MemRep (chunkCap start : ℕ) (rows : List (StampedRow m V))
    (g : ChunkedNodeGroup cap m V) : Prop extends GroupRep start rows g where
  inMemory : g.residencyState = .inMemory
  capacity_eq : g.capacity = chunkCap
  length_le : rows.length ≤ chunkCap
  length_chunks : ∀ c, (g.chunks c).length = rows.length
  fresh : g.versionInfo = none → rows = []

/-- Rows as a scan puts them out, from row `start` of the node group on. -/
def outputRows (start : ℕ) (rows : List (Fin m → V)) : List (OutputRow m V) :=
  (rows.zipIdx start).map fun p => (p.2, fun c => some (p.1 c))

/-- A row that `T` sees because its insertion has committed. -/
def RowOk (T : Transaction) (row : StampedRow m V) : Prop :=
  ∃ ts, row.1 = .committed ts ∧ ts ≤ T.startTS

/-- The rows that `T` sees, as a scan puts them out from row `start` of the node group on. -/
def visibleRows (T : Transaction) (start : ℕ) (rows : List (StampedRow m V)) :
    List (OutputRow m V) :=
  ((rows.zipIdx start).filter fun p => p.1.1.visibleTo T.id T.startTS).map
    fun p => (p.2, fun c => some (p.1.2 c))

/-- Ids and timestamps of the rows are on their own side of `startTransactionID`. -/
def StampsOk (rows : List (StampedRow m V)) : Prop := ∀ row ∈ rows, StampOk (some row.1)

lemma visibleRows_append (T : Transaction) (s : ℕ) (rows rows' : List (StampedRow m V)) :
    visibleRows T s (rows ++ rows')
      = visibleRows T s rows ++ visibleRows T (s + rows.length) rows' := by
  unfold visibleRows
  rw [zipIdx_append, filter_append, map_append]

variable {row : ℕ} {T : Transaction} {rows : List (StampedRow m V)}

lemma StampsOk.insOf (h : StampsOk rows) (row : ℕ) : StampOk (insOf rows row) := by
  unfold Ladybug.insOf
  cases hget : rows[row]? with
  | none => trivial
  | some r => exact h r (mem_of_getElem? hget)

lemma StampsOk.append_stamped (h : StampsOk rows) {s : Stamp} (hs : StampOk (some s))
    (new : List (Fin m → V)) : StampsOk (rows ++ stamped s new) := by
  intro row hrow
  rcases mem_append.mp hrow with hrow | hrow
  · exact h row hrow
  · obtain ⟨v, -, rfl⟩ := mem_map.mp hrow
    exact hs

/-- Without deletions a row is selected if inserted. -/
lemma rowSelected_insOf (T : Transaction) (hrow : row < rows.length) :
    rowSelected (insOf rows) (fun _ => none) T row = rows[row].1.visibleTo T.id T.startTS := by
  rw [rowSelected, insOf, getElem?_eq_getElem hrow, Option.map_some]
  simp

lemma RowOk.stampsOk (h : ∀ row ∈ rows, RowOk T row) : StampsOk rows := by
  intro row hrow
  obtain ⟨ts, hts, hle⟩ := h row hrow
  rw [hts]
  exact lt_of_le_of_lt hle T.startTS_lt

lemma visibleRows_of_rowOk (h : ∀ row ∈ rows, RowOk T row) (s : ℕ) :
    visibleRows T s rows = outputRows s (rows.map Prod.snd) := by
  have hall : (rows.zipIdx s).filter (fun p => p.1.1.visibleTo T.id T.startTS) = rows.zipIdx s := by
    rw [filter_eq_self]
    intro p hp
    obtain ⟨ts, hts, hle⟩ := h p.1 (fst_mem_of_mem_zipIdx hp)
    rw [hts]
    simpa using hle
  rw [visibleRows, hall, outputRows, zipIdx_map, map_map]
  rfl

lemma insOf_of_le (h : rows.length ≤ row) : insOf rows row = none := by
  rw [insOf, getElem?_eq_none h, Option.map_none]

/-- Appending stamps the rows at the end. -/
lemma insOf_append_stamped (rows : List (StampedRow m V)) (s : Stamp) (new : List (Fin m → V)) :
    insOf (rows ++ stamped s new) = stampRange (insOf rows) rows.length new.length (some s) := by
  funext row
  unfold insOf stampRange
  by_cases hlt : row < rows.length
  · rw [getElem?_append_left hlt, if_neg (by omega)]
  · rw [getElem?_append_right (by omega)]
    by_cases hnew : row < rows.length + new.length
    · rw [if_pos ⟨by omega, hnew⟩, stamped, getElem?_map, getElem?_eq_getElem (by omega)]
      rfl
    · rw [if_neg (by omega), getElem?_eq_none (by rw [length_stamped]; omega)]
      exact (insOf_of_le (by omega)).symm

namespace ChunkedNodeGroup

/-- A fresh group is empty. -/
lemma create_rep (chunkCap start : ℕ) :
    MemRep chunkCap start [] (create chunkCap start : ChunkedNodeGroup cap m V) where
  start_eq := rfl
  numRows_eq := rfl
  chunks_take := fun _ => rfl
  versions := nofun
  inMemory := rfl
  capacity_eq := rfl
  length_le := Nat.zero_le _
  length_chunks := fun _ => rfl
  fresh := fun _ => rfl

variable {chunkCap id start : ℕ} {g : ChunkedNodeGroup cap m V}

lemma versionsRep_some (h : GroupRep start rows g) {vi : VersionInfo cap}
    (hvi : g.versionInfo = some vi) :
    Rep Lag.none false rows.length (insOf rows) (fun _ => none) vi := by
  have := h.versions
  rw [hvi] at this
  exact this

lemma versionsRep_getD (h : MemRep chunkCap start rows g) :
    Rep Lag.none false rows.length (insOf rows) (fun _ => none) (g.versionInfo.getD {}) := by
  cases hvi : g.versionInfo with
  | none =>
    rw [h.fresh hvi]
    intro v
    exact ⟨fun _ _ => rfl, fun i _ hi => by simp at hi⟩
  | some vi => exact versionsRep_some h.toGroupRep hvi

/-- **Appending** to a group. -/
lemma append_spec (hcap : 0 < cap) (h : MemRep chunkCap start rows g)
    (hid : StampOk (some (.active id))) (columnVectors : Fin m → List V) (k : ℕ)
    (new : List (Fin m → V))
    (hnew : ∀ c, ((columnVectors c).drop k).take new.length = new.map (· c))
    (hroom : rows.length + new.length ≤ chunkCap) :
    ∃ g', g.append id columnVectors k new.length = some (new.length, g') ∧
      MemRep chunkCap start (rows ++ stamped (.active id) new) g' := by
  obtain ⟨vi, hvi, hrep⟩ := VersionInfo.append_spec hcap (versionsRep_getD h) hid
    (fun row hle => insOf_of_le hle)
    (fun hpos => by
      rw [insOf, getElem?_eq_getElem (by omega)]
      exact nofun) new.length
  -- the rows fit into the group
  have hmin : min new.length (g.capacity - g.numRows) = new.length := by
    rw [h.capacity_eq, h.numRows_eq]
    omega
  have hfit : ∀ c, (g.chunks c).length + new.length ≤ g.capacity := by
    intro c
    rw [h.length_chunks, h.capacity_eq]
    exact hroom
  have hdisk : g.residencyState ≠ .onDisk := by rw [h.inMemory]; exact nofun
  refine ⟨{ g with
      chunks := fun c => g.chunks c ++ ((columnVectors c).drop k).take new.length
      versionInfo := some vi
      numRows := g.numRows + new.length }, ?_, ?_⟩
  · unfold append
    rw [← h.numRows_eq] at hvi
    simp [hmin, guard, hdisk, hfit, hvi]
  · have hall : ∀ c, g.chunks c = rows.map (·.2 c) := fun c => by
      rw [← h.chunks_take c, take_of_length_le (h.length_chunks c).le]
    have hchunks : ∀ c, g.chunks c ++ ((columnVectors c).drop k).take new.length
        = (rows ++ stamped (.active id) new).map (·.2 c) := fun c => by
      rw [hall, hnew, map_append, stamped, map_map]
      rfl
    have hlen : (rows ++ stamped (.active id) new).length = rows.length + new.length := by
      rw [length_append, length_stamped]
    refine ⟨⟨h.start_eq, ?_, fun c => ?_, ?_⟩, h.inMemory, h.capacity_eq, ?_, fun c => ?_, nofun⟩
    · rw [hlen, ← h.numRows_eq]
    · simp only [hchunks]
      exact take_of_length_le (by rw [length_map])
    · rw [← insOf_append_stamped, ← hlen] at hrep
      exact hrep
    · rw [hlen]
      exact hroom
    · simp [hchunks]

/-- The stamps of the rows at the end, while nothing else is active. -/
lemma insOf_append_active (rows : List (StampedRow m V)) (id : ℕ) (new : List (Fin m → V))
    (row : ℕ) (hle : rows.length ≤ row) (hlt : row < rows.length + new.length) :
    insOf (rows ++ stamped (.active id) new) row = some (.active id) := by
  rw [insOf_append_stamped]
  exact if_pos ⟨hle, hlt⟩

/-! ### What a group shows -/

lemma rowAt_eq (h : GroupRep start rows g) (hrow : row < rows.length) :
    g.rowAt row = (start + row, fun c => some (rows[row].2 c)) := by
  rw [rowAt, h.start_eq, Prod.mk.injEq]
  refine ⟨rfl, funext fun c => ?_⟩
  have hc := congrArg (·[row]?) (h.chunks_take c)
  simp only [getElem?_take_of_lt hrow, getElem?_map,
    getElem?_eq_getElem hrow, Option.map_some] at hc
  exact hc

/-- Without versions all rows are visible. -/
lemma visibleTo_of_versionInfo_none (h : GroupRep start rows g) (hvi : g.versionInfo = none)
    (T : Transaction) : ∀ row ∈ rows, row.1.visibleTo T.id T.startTS = true := by
  intro row hrow
  have hver := h.versions
  rw [hvi] at hver
  rw [hver row hrow]
  simp

/-- **Looking up** a row of a group. -/
lemma lookup_spec (hcap : 0 < cap) (hok : StampsOk rows) (h : GroupRep start rows g)
    (T : Transaction) (hrow : row < rows.length) :
    g.lookup T row
      = some (if rows[row].1.visibleTo T.id T.startTS then some (g.rowAt row) else none) := by
  have hle : row + 1 ≤ g.numRows := by rw [h.numRows_eq]; omega
  unfold lookup
  cases hvi : g.versionInfo with
  | none =>
    rw [if_pos (visibleTo_of_versionInfo_none h hvi T _ (getElem_mem hrow))]
    simp [guard, hle]
  | some vi =>
    have hsel := isSelected_spec hcap (versionsRep_some h hvi) hok.insOf
      (fun _ => stampOk_none) T hrow
    rw [rowSelected_insOf T hrow] at hsel
    simp [guard, hle, hsel]

lemma map_rowAt_filter
    (h : GroupRep start rows g) (T : Transaction) {n : ℕ} (hle : row + n ≤ rows.length) :
    ((List.range n).filter fun i => rowSelected (insOf rows) (fun _ => none) T (row + i)).map
        (fun i => g.rowAt (row + i))
      = visibleRows T (start + row) ((rows.drop row).take n) := by
  induction n with
  | zero => rfl
  | succ n ih =>
    have hlt : row + n < rows.length := by omega
    have hlast : (rows.drop row).take (n + 1) = (rows.drop row).take n ++ [rows[row + n]] := by
      rw [take_add_one, getElem?_drop, getElem?_eq_getElem hlt]
      rfl
    have hlen : ((rows.drop row).take n).length = n := by
      rw [length_take, length_drop]
      omega
    rw [range_succ, filter_append, map_append, ih (by omega), hlast, visibleRows_append, hlen]
    congr 1
    cases hvis : rows[row + n].1.visibleTo T.id T.startTS <;>
      simp [rowSelected_insOf T hlt, hvis, visibleRows, rowAt_eq h hlt, Nat.add_assoc]

/-- **Scanning** rows of a group. -/
lemma scan_spec (hcap : 0 < cap) (hok : StampsOk rows) (h : GroupRep start rows g)
    (T : Transaction) (row n : ℕ) (hn : 0 < n) (hle : row + n ≤ rows.length)
    (sv : SelectionVector) :
    ∃ sv', g.scan T sv row n
      = some (sv', visibleRows T (start + row) ((rows.drop row).take n)) := by
  have hguard : row + n ≤ g.numRows := by rw [h.numRows_eq]; exact hle
  unfold scan
  cases hvi : g.versionInfo with
  | none =>
    have hall : (List.range n).filter
        (fun i => rowSelected (insOf rows) (fun _ => none) T (row + i)) = List.range n := by
      rw [filter_eq_self]
      intro i hi
      have hlt : row + i < rows.length := by have := mem_range.mp hi; omega
      rw [rowSelected_insOf T hlt]
      exact visibleTo_of_versionInfo_none h hvi T _ (getElem_mem hlt)
    refine ⟨sv.setToUnfiltered n, ?_⟩
    simp only [guard, if_pos hguard, Option.pure_def, Option.bind_eq_bind, Option.bind_some]
    rw [← map_rowAt_filter h T hle, hall]
    rfl
  | some vi =>
    obtain ⟨sv', hrun, hpos⟩ := getSelVectorToScan_spec hcap (versionsRep_some h hvi)
      hok.insOf (fun _ => stampOk_none) T hn hle sv
    refine ⟨sv', ?_⟩
    simp [guard, hguard, hrun, hpos, map_rowAt_filter h T hle]

end ChunkedNodeGroup

end Ladybug
