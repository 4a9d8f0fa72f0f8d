import Ladybug.Storage.ColumnChunkStats
import Ladybug.Lib.Fold
import Mathlib.Order.Interval.Basic
import Mathlib.Data.Fintype.Order

/-!
# Statistics as intervals, and the statistics of data in memory

Statistics stand for an interval of keys (`Represents`), and updating them is the join of intervals
(`represents_updateBy`). The minimum and the maximum of values are the smallest interval with their
keys (`represents_getMinMax`, `represents_filteredMinMax`).

Chunk data in memory keep an interval that contains the keys of all rows that are not null, and one
of the null bits (`Tracks`). Every append and every write keeps such intervals, as long as no value
is NaN, null bits have null data to go to and internal ids are written without gaps.
-/

namespace Ladybug.ZoneMap

open List ColumnKind ColumnChunkStats
open Option (bind_eq_some_iff isSome_iff_exists some.inj)

variable {V K : Type} {key : V → Option K} {v zero : V} {row : Row V} {rows : List (Row V)}

/-! ### Rows -/

def Keyed (key : V → Option K) (values : List V) : Prop :=
  ∀ v ∈ values, (key v).isSome

/-- All values of rows can be compared, also those of null rows. -/
def KeyedRows (key : V → Option K) (rows : List (Row V)) : Prop :=
  Keyed key (rows.map Prod.fst)

lemma mem_nonNull (hrow : row ∈ rows) (hnull : row.2 = false) : row.1 ∈ nonNull rows := by
  apply mem_map_of_mem
  rw [mem_filter]
  exact ⟨hrow, by rw [hnull]; rfl⟩

lemma mem_map_of_mem_nonNull (hv : v ∈ nonNull rows) : v ∈ rows.map Prod.fst := by
  obtain ⟨row, hrow, rfl⟩ := mem_map.mp hv
  exact mem_map_of_mem (mem_filter.mp hrow).1

lemma mem_included (hrow : row ∈ rows)
    (hnull : row.2 = false) (noNulls : Bool) : row.1 ∈ included noNulls rows := by
  cases noNulls with
  | true => exact mem_map_of_mem hrow
  | false => exact mem_nonNull hrow hnull

lemma KeyedRows.included (h : KeyedRows key rows) (noNulls : Bool) :
    Keyed key (included noNulls rows) := by
  cases noNulls with
  | true => exact h
  | false => exact fun v hv => h v (mem_map_of_mem_nonNull hv)

lemma keyedRows_def : KeyedRows key rows ↔ ∀ row ∈ rows, (key row.1).isSome := forall_mem_map

lemma KeyedRows.subset (h : KeyedRows key rows) {rows' : List (Row V)}
    (hsub : ∀ row ∈ rows', row ∈ rows) : KeyedRows key rows' :=
  keyedRows_def.mpr fun row hrow => keyedRows_def.mp h row (hsub row hrow)

lemma KeyedRows.key_eq_some (h : KeyedRows key rows) (hrow : row ∈ rows) :
    ∃ k, key row.1 = some k :=
  isSome_iff_exists.mp (keyedRows_def.mp h row hrow)

variable [LinearOrder K]

/-! ### Statistics as intervals -/

/-- The interval of keys that statistics stand for. -/
inductive Represents (key : V → Option K) : ColumnChunkStats V → Interval K → Prop
  | empty : Represents key .empty ⊥
  | bounds {min max : V} {I : NonemptyInterval K} (hmin : key min = some I.fst)
      (hmax : key max = some I.snd) : Represents key ⟨some min, some max⟩ I

lemma gt_eq {x y : V} {a b : K} (hx : key x = some a) (hy : key y = some b) :
    gt key x y = decide (b < a) := by
  simp only [gt, hx, hy]

variable {k : K} {offset : ℕ} {values : List V} {I J : Interval K}
  {data data' : InMemoryData V} {s stats : ColumnChunkStats V}
  {nullStats : ColumnChunkStats Bool} {entries : List (Row V × ℕ)} {multiplicityOne noNulls : Bool}
  {kind : ColumnKind} {α : Type} {c : α}

/-- Updating by other statistics joins the intervals. -/
lemma represents_updateBy {s' : ColumnChunkStats V}
    (hs : Represents key s I) (hs' : Represents key s' J) :
    Represents key (s.updateBy key s') (I ⊔ J) := by
  cases hs with
  | empty =>
    rw [bot_sup_eq]
    exact hs'
  | @bounds min max I hmin hmax =>
    cases hs' with
    | empty =>
      rw [sup_bot_eq]
      exact .bounds hmin hmax
    | @bounds min' max' J hmin' hmax' =>
      -- the smaller minimum and the larger maximum
      have hlow : ∃ m, (updateBy key ⟨some min, some max⟩
          ⟨some min', some max'⟩).min = some m ∧ key m = some (I ⊔ J).fst := by
        show ∃ m, (if gt key min min' then some min' else some min) = some m ∧ _
        rw [gt_eq hmin hmin', NonemptyInterval.fst_sup]
        by_cases hlt : J.fst < I.fst
        · exact ⟨min', by simp [hlt], by rw [hmin', inf_eq_right.mpr hlt.le]⟩
        · exact ⟨min, by simp [hlt], by rw [hmin, inf_eq_left.mpr (not_lt.mp hlt)]⟩
      have hhigh : ∃ m, (updateBy key ⟨some min, some max⟩
          ⟨some min', some max'⟩).max = some m ∧ key m = some (I ⊔ J).snd := by
        show ∃ m, (if gt key max' max then some max' else some max) = some m ∧ _
        rw [gt_eq hmax' hmax, NonemptyInterval.snd_sup]
        by_cases hlt : I.snd < J.snd
        · exact ⟨max', by simp [hlt], by rw [hmax', sup_eq_right.mpr hlt.le]⟩
        · exact ⟨max, by simp [hlt], by rw [hmax, sup_eq_left.mpr (not_lt.mp hlt)]⟩
      obtain ⟨m, hm, hkm⟩ := hlow
      obtain ⟨M, hM, hkM⟩ := hhigh
      have heq : updateBy key ⟨some min, some max⟩ ⟨some min', some max'⟩ = ⟨some m, some M⟩ := by
        rw [← hm, ← hM]
      rw [heq]
      exact .bounds hkm hkM

lemma represents_value (hv : key v = some k) : Represents key ⟨some v, some v⟩ (Interval.pure k) :=
  .bounds (I := NonemptyInterval.pure k) hv hv

/-- The smallest interval with the keys of the values. -/
def hull (key : V → Option K) (values : List V) : Interval K :=
  (values.filterMap key).foldr (fun k I => Interval.pure k ⊔ I) ⊥

lemma hull_nil : hull key ([] : List V) = ⊥ := rfl

/-- The hull grows by one value at a time. -/
lemma hull_cons (hv : key v = some k) (values : List V) :
    hull key (v :: values) = Interval.pure k ⊔ hull key values := by
  rw [hull, filterMap_cons_some hv]
  rfl

/-- Each value is within the hull. -/
lemma pure_le_hull (hv : v ∈ values) (hk : key v = some k) : Interval.pure k ≤ hull key values := by
  have hmem : k ∈ values.filterMap key := mem_filterMap.mpr ⟨v, hv, hk⟩
  rw [hull]
  generalize values.filterMap key = keys at hmem ⊢
  induction keys with
  | nil => cases hmem
  | cons a as ih =>
    obtain rfl | htail := mem_cons.mp hmem
    · exact le_sup_left
    · exact le_sup_of_le_right (ih htail)

lemma minMaxStep_eq (acc : ColumnChunkStats V) (v : V) :
    minMaxStep key acc v = acc.updateBy key ⟨some v, some v⟩ := by
  obtain ⟨min, max⟩ := acc
  cases min <;> cases max <;> rfl

/-- The loop joins the hull of the values. -/
lemma represents_foldl_minMaxStep (hkeyed : Keyed key values) (hs : Represents key s I) :
    Represents key (values.foldl (minMaxStep key) s) (I ⊔ hull key values) := by
  induction values generalizing s I with
  | nil =>
    rw [hull_nil, sup_bot_eq]
    exact hs
  | cons v values ih =>
    obtain ⟨k, hk⟩ := isSome_iff_exists.mp (hkeyed v mem_cons_self)
    rw [foldl_cons, hull_cons hk, ← sup_assoc]
    apply ih fun w hw => hkeyed w (mem_cons_of_mem v hw)
    rw [minMaxStep_eq]
    exact represents_updateBy hs (represents_value hk)

/-- `getMinMax` finds the hull of the values. -/
lemma represents_getMinMax (hkeyed : Keyed key values) :
    Represents key (getMinMax key values) (hull key values) := by
  have h := represents_foldl_minMaxStep hkeyed .empty
  rwa [bot_sup_eq] at h

/-! ### Vectors with a filter -/

@[reducible] def boundsStats (bounds : V × V) : ColumnChunkStats V :=
  ⟨some bounds.1, some bounds.2⟩

/-- The bounds of the loop over a filtered vector: both bounds are the first value at first, so
that no value can be below the one and above the other. -/
lemma represents_filteredLoop (hkeyed : Keyed key values) {bounds : V × V}
    (h : Represents key (boundsStats bounds) I) :
    Represents key (boundsStats <| values.foldl (fun bounds value =>
      if gt key bounds.1 value then (value, bounds.2)
      else if gt key value bounds.2 then (bounds.1, value)
      else bounds) bounds) (I ⊔ hull key values) := by
  induction values generalizing bounds I with
  | nil =>
    rw [hull_nil, sup_bot_eq]
    exact h
  | cons v values ih =>
    obtain ⟨k, hk⟩ := isSome_iff_exists.mp (hkeyed v mem_cons_self)
    rw [foldl_cons, hull_cons hk, ← sup_assoc]
    apply ih fun w hw => hkeyed w (mem_cons_of_mem v hw)
    have hupdate := represents_updateBy h (represents_value hk)
    obtain ⟨min, max⟩ := bounds
    cases h with
    | @bounds _ _ I hmin hmax =>
    have heq : updateBy key ⟨some min, some max⟩ ⟨some v, some v⟩ =
        ⟨if gt key min v then some v else some min,
          if gt key v max then some v else some max⟩ := rfl
    rw [heq, gt_eq hmin hk, gt_eq hk hmax] at hupdate
    simp only [gt_eq hmin hk, gt_eq hk hmax]
    by_cases hlow : k < I.fst
    · have hhigh : ¬ I.snd < k := fun hlt => absurd (I.fst_le_snd.trans_lt hlt) (not_lt_of_gt hlow)
      simpa [hlow, hhigh] using hupdate
    · by_cases hhigh : I.snd < k <;> simpa [hlow, hhigh] using hupdate

lemma represents_filteredMinMax (hkeyed : Keyed key (nonNull rows)) :
    Represents key (filteredMinMax key rows) (hull key (nonNull rows)) := by
  rw [filteredMinMax]
  cases hvalues : nonNull rows with
  | nil => exact .empty
  | cons first values =>
    rw [hvalues] at hkeyed
    obtain ⟨k, hk⟩ := isSome_iff_exists.mp (hkeyed first mem_cons_self)
    have hfirst : Represents key (boundsStats (first, first)) (Interval.pure k) :=
      represents_value hk
    have hrep := represents_filteredLoop hkeyed hfirst
    rwa [sup_eq_right.mpr (pure_le_hull mem_cons_self hk)] at hrep

/-- What is in a list some of whose elements have been overwritten. -/
lemma getElem?_overwrite {cells new : List α} {i : ℕ} (hle : offset + new.length ≤ cells.length)
    (hc : (cells.take offset ++ new ++ cells.drop (offset + new.length))[i]? = some c) :
    (cells[i]? = some c ∧ (i < offset ∨ offset + new.length ≤ i)) ∨ c ∈ new := by
  have htake : (cells.take offset).length = offset := by
    rw [length_take]
    omega
  rw [append_assoc] at hc
  by_cases hi : i < offset
  · left
    rw [getElem?_append_left (by omega), getElem?_take_of_lt hi] at hc
    exact ⟨hc, .inl hi⟩
  · rw [getElem?_append_right (by omega), htake] at hc
    by_cases hn : i < offset + new.length
    · right
      rw [getElem?_append_left (by omega)] at hc
      exact mem_of_getElem? hc
    · left
      rw [getElem?_append_right (by omega), getElem?_drop,
        show offset + new.length + (i - offset - new.length) = i by omega] at hc
      exact ⟨hc, .inr (by omega)⟩

/-- A cell after a write is an old or a new one. -/
lemma mem_overwrite {cells new : List α} {n : ℕ}
    (hc : c ∈ cells.take offset ++ new ++ cells.drop n) : c ∈ cells ∨ c ∈ new := by
  rw [mem_append, mem_append] at hc
  obtain (hold | hnew) | hold := hc
  · exact .inl (mem_of_mem_take hold)
  · exact .inr hnew
  · exact .inl (mem_of_mem_drop hold)

/-! ### Data in memory -/

/-- The statistics of the data speak of the row `i`: statistics of values that are merged with the
default metadata speak of the rest of the buffer too. -/
def Reported (data : InMemoryData V) (i : ℕ) : Prop :=
  data.kind.isStorageValueType ∨ (data.kind = .internalID ∧ i < data.numValues)

/-- What the default metadata add to the statistics. -/
def metadataHull (key : V → Option K) (zero : V) (kind : ColumnKind) : Interval K :=
  if kind.isStorageValueType then hull key [zero] else ⊥

/-- The null statistics contain the null bits of the cells. -/
def TracksNulls (nullStats : ColumnChunkStats Bool) (cells : List (Row V)) : Prop :=
  ∃ J, Represents boolKey nullStats J ∧
    ∀ cell ∈ cells, Interval.pure cell.2 ≤ J ⊔ Interval.pure false

/-- The statistics in memory stand for `I`, and with the default metadata they contain the keys of
the values that are not null. -/
structure Tracks (key : V → Option K) (zero : V) (data : InMemoryData V) (I : Interval K) :
    Prop where
  represents : Represents key data.inMemoryStats I
  unreported : data.kind = .other → I = ⊥
  inBuffer : data.numValues ≤ data.cells.length
  keyed : KeyedRows key data.cells
  covered : ∀ i cell, data.cells[i]? = some cell → cell.2 = false → Reported data i →
    ∀ k, key cell.1 = some k → Interval.pure k ≤ I ⊔ metadataHull key zero data.kind
  nulls : TracksNulls data.nullStats data.cells
  noNullData : data.hasNullData = false → ∀ cell ∈ data.cells, cell.2 = false

/-- A fresh chunk tracks the empty interval. -/
lemma tracks_create (hzero : (key zero).isSome) (kind : ColumnKind) (capacity : ℕ)
    (hasNullData : Bool) :
    Tracks key zero (InMemoryData.create kind zero capacity hasNullData) ⊥ := by
  obtain ⟨k, hk⟩ := isSome_iff_exists.mp hzero
  have hcell : ∀ cell ∈ (InMemoryData.create kind zero capacity hasNullData).cells,
      cell = (zero, false) := fun cell hcell => (mem_replicate.mp hcell).2
  refine ⟨.empty, fun _ => rfl, Nat.zero_le _, ?_, ?_, ⟨⊥, .empty, ?_⟩, ?_⟩
  · refine keyedRows_def.mpr fun cell hmem => ?_
    rw [hcell cell hmem]
    exact hzero
  · intro i cell hget _ hreported a ha
    rw [hcell cell (mem_of_getElem? hget)] at ha
    -- the rest of the buffer has the default value
    obtain hstorage | ⟨-, hlt⟩ := hreported
    · rw [bot_sup_eq, metadataHull, if_pos hstorage]
      exact pure_le_hull mem_cons_self ha
    · exact absurd hlt (Nat.not_lt_zero i)
  · intro cell hmem
    rw [hcell cell hmem]
    exact le_sup_right
  · intro _ cell hmem
    rw [hcell cell hmem]

/-- Widened statistics still track the chunk. -/
lemma Tracks.widen (h : Tracks key zero data I) (hkind : data.kind ≠ .other)
    (hrep : Represents key stats (I ⊔ J)) :
    Tracks key zero { data with inMemoryStats := stats } (I ⊔ J) :=
  { h with
    represents := hrep
    unreported := fun hother => absurd hother hkind
    covered := fun i cell hi hnull hreported k hk =>
      (h.covered i cell hi hnull hreported k hk).trans (sup_le_sup_right le_sup_left _) }

lemma keyed_boolKey (bits : List Bool) : Keyed boolKey bits := fun _ _ => rfl

/-- The null statistics follow the written bits. -/
lemma TracksNulls.update {cells cells' : List (Row V)} (h : TracksNulls nullStats cells)
    {bits : List Bool} (hcells : ∀ cell ∈ cells', cell ∈ cells ∨ cell.2 ∈ bits) :
    TracksNulls (nullStats.updateBy boolKey (getMinMax boolKey bits)) cells' := by
  obtain ⟨J, hrep, hJ⟩ := h
  refine ⟨J ⊔ hull boolKey bits,
    represents_updateBy hrep (represents_getMinMax (keyed_boolKey bits)), fun cell hcell => ?_⟩
  obtain hold | hnew := hcells cell hcell
  · exact (hJ cell hold).trans (sup_le_sup_right le_sup_left _)
  · exact (pure_le_hull hnew rfl).trans (le_sup_of_le_left le_sup_right)

/-- Rows whose null bits can be stored. -/
def NullsFit (hasNullData : Bool) (rows : List (Row V)) : Prop :=
  hasNullData = false → ∀ row ∈ rows, row.2 = false

/-- **Writing.** New cells whose keys the statistics contain already, in place of old ones. -/
theorem Tracks.overwrite (h : Tracks key zero data I) {new : List (Row V)}
    (hle : offset + new.length ≤ data.cells.length)
    (hkeyed : KeyedRows key new) (hfit : NullsFit data.hasNullData new)
    (hgap : data.kind = .internalID → offset ≤ data.numValues)
    (hI : data.kind ≠ .other → ∀ cell ∈ new, cell.2 = false → ∀ k, key cell.1 = some k →
      Interval.pure k ≤ I)
    (hnulls : TracksNulls nullStats
      (data.cells.take offset ++ new ++ data.cells.drop (offset + new.length))) :
    Tracks key zero ⟨data.kind,
      data.cells.take offset ++ new ++ data.cells.drop (offset + new.length),
      max data.numValues (offset + new.length), data.hasNullData, data.inMemoryStats, nullStats⟩
      I := by
  refine ⟨h.represents, h.unreported, ?_, keyedRows_def.mpr fun cell hcell => ?_, ?_, hnulls,
    fun hn cell hcell => (mem_overwrite hcell).elim (h.noNullData hn cell) (hfit hn cell)⟩
  · have := h.inBuffer
    rw [length_append, length_append, length_take, length_drop]
    dsimp only
    omega
  · exact (mem_overwrite hcell).elim (keyedRows_def.mp h.keyed cell) (keyedRows_def.mp hkeyed cell)
  · intro i cell hi hnull hreported k hk
    obtain ⟨hold, hout⟩ | hnew := getElem?_overwrite hle hi
    · refine h.covered i cell hold hnull ?_ k hk
      obtain hs | ⟨hid, hlt⟩ := hreported
      · exact .inl hs
      · -- a row that is not written and counted now was counted before
        have hlt : i < max data.numValues (offset + new.length) := hlt
        have hg := hgap hid
        exact .inr ⟨hid, by omega⟩
    -- a written row is within the interval
    · have hne : data.kind ≠ .other := by
        intro hother
        rw [hother] at hreported
        obtain hs | ⟨hs, -⟩ := hreported <;> cases hs
      exact (hI hne cell hnew hnull k hk).trans le_sup_left

/-- Writing cells leaves the statistics. -/
lemma writeCells_fields (h : data.writeCells offset rows = some data') :
    data'.kind = data.kind ∧ data'.hasNullData = data.hasNullData ∧
      data'.inMemoryStats = data.inMemoryStats ∧
      data'.numValues = max data.numValues (offset + rows.length) := by
  rw [InMemoryData.writeCells] at h
  split at h
  · obtain rfl := some.inj h
    exact ⟨rfl, rfl, rfl, rfl⟩
  · cases h

section

variable (hwrite : data.writeCells offset rows = some data') (hkeyed : KeyedRows key rows)
  (hfit : NullsFit data.hasNullData rows)

include hwrite hkeyed hfit

/-- Writing rows into the buffer, with statistics that contain them already. -/
lemma Tracks.writeCells (h : Tracks key zero { data with inMemoryStats := stats } I)
    (hgap : data.kind = .internalID → offset ≤ data.numValues)
    (hI : data.kind ≠ .other → ∀ row ∈ rows, row.2 = false → ∀ k, key row.1 = some k →
      Interval.pure k ≤ I) :
    Tracks key zero { data' with inMemoryStats := stats } I := by
  rw [InMemoryData.writeCells] at hwrite
  split at hwrite
  case isFalse => cases hwrite
  case isTrue hle =>
  obtain rfl := some.inj hwrite
  rw [← length_map (fun row : Row V => (row.1, data.hasNullData && row.2))] at hle ⊢
  refine h.overwrite hle (keyedRows_def.mpr ?_) ?_ hgap ?_ ?_
  · exact forall_mem_map.mpr (keyedRows_def.mp hkeyed)
  · intro hn
    exact forall_mem_map.mpr fun row _ => by rw [show data.hasNullData = false from hn]; rfl
  · refine fun hne => forall_mem_map.mpr fun row hrow hnull => hI hne row hrow ?_
    cases hn : data.hasNullData with
    | false => exact hfit hn row hrow
    | true => rwa [hn, Bool.true_and] at hnull
  · exact h.nulls.update fun cell hcell => (mem_overwrite hcell).imp_right mem_map_of_mem

lemma Tracks.writeCells_other (h : Tracks key zero data I) (hkind : data.kind = .other) :
    ∃ I', Tracks key zero data' I' := by
  have hstats : data'.inMemoryStats = data.inMemoryStats := (writeCells_fields hwrite).2.2.1
  have hid : data.kind = .internalID → offset ≤ data.numValues := by
    rw [hkind]
    nofun
  have htracks := Tracks.writeCells hwrite hkeyed hfit h hid fun hne => absurd hkind hne
  rw [← hstats] at htracks
  exact ⟨I, htracks⟩

/-- Writing rows and updating the statistics with those of values that contain the rows. -/
lemma Tracks.writeCells_updateBy (h : Tracks key zero data I)
    (hgap : data.kind = .internalID → offset ≤ data.numValues) (hkind : data.kind ≠ .other)
    {minMax : ColumnChunkStats V} (hminMax : Represents key minMax J)
    (hJ : ∀ row ∈ rows, row.2 = false → ∀ k, key row.1 = some k → Interval.pure k ≤ J) :
    ∃ I', Tracks key zero
      { data' with inMemoryStats := data.inMemoryStats.updateBy key minMax } I' :=
  ⟨_, (h.widen hkind (represents_updateBy h.represents hminMax)).writeCells hwrite hkeyed hfit hgap
    fun _ row hrow hnull k hk => (hJ row hrow hnull k hk).trans le_sup_right⟩

end

/-! ### Operations in memory -/

lemma ColumnKind.ne_other (h : kind.updatesStats = true) : kind ≠ .other := by
  rintro rfl
  cases h

lemma ColumnKind.eq_other (h : ¬ kind.updatesStats = true) : kind = .other := by
  cases kind with
  | other => rfl
  | _ => exact absurd rfl h

lemma Tracks.appendVector (h : Tracks key zero data I) {behind : List (Row V)} {filtered : Bool}
    (hwrite : data.appendVector key rows behind filtered = some data')
    (hkeyed : KeyedRows key (rows ++ behind)) (hfit : NullsFit data.hasNullData rows)
    (hkind : data.kind ≠ .internalID) : ∃ I', Tracks key zero data' I' := by
  have hrows : KeyedRows key rows := fun v hv =>
    hkeyed v (by rw [map_append]; exact mem_append_left _ hv)
  have hstorage : data.kind ≠ .other → (do
      let data' ← data.writeCells data.numValues rows
      let minMax := if filtered then filteredMinMax key rows
        else getMinMax key (nonNull (rows ++ behind))
      return { data' with inMemoryStats := data.inMemoryStats.updateBy key minMax }) =
        some data' → ∃ I', Tracks key zero data' I' := by
    intro hne hwrite
    obtain ⟨m, hm, hdata⟩ := bind_eq_some_iff.mp hwrite
    obtain rfl := some.inj hdata
    -- unfiltered, the statistics cover the rows behind as well
    cases filtered with
    | true =>
      exact h.writeCells_updateBy hm hrows hfit (fun hid => absurd hid hkind) hne
        (represents_filteredMinMax (hrows.included false))
        fun row hrow hnull k hk => pure_le_hull (mem_nonNull hrow hnull) hk
    | false =>
      exact h.writeCells_updateBy hm hrows hfit (fun hid => absurd hid hkind) hne
        (represents_getMinMax (hkeyed.included false))
        fun row hrow hnull k hk =>
          pure_le_hull (mem_nonNull (mem_append_left _ hrow) hnull) hk
  rw [InMemoryData.appendVector] at hwrite
  cases hk : data.kind with
  | internalID => exact absurd hk hkind
  | other =>
    rw [hk] at hwrite
    exact h.writeCells_other hwrite hrows hfit hk
  | storageValue | bool =>
    rw [hk] at hwrite
    exact hstorage (by rw [hk]; nofun) hwrite

lemma Tracks.writeChunk (h : Tracks key zero data I) {dst : ℕ}
    (hwrite : data.writeChunk key rows noNulls dst = some data') (hkeyed : KeyedRows key rows)
    (hfit : NullsFit data.hasNullData rows)
    (hgap : data.kind = .internalID → dst ≤ data.numValues) : ∃ I', Tracks key zero data' I' := by
  rw [InMemoryData.writeChunk] at hwrite
  obtain ⟨m, hm, hdata⟩ := bind_eq_some_iff.mp hwrite
  split at hdata
  case isTrue hstats =>
    obtain rfl := some.inj hdata
    exact h.writeCells_updateBy hm hkeyed hfit hgap (ne_other hstats)
      (represents_getMinMax (hkeyed.included noNulls))
      fun row hrow hnull k hk => pure_le_hull (mem_included hrow hnull noNulls) hk
  case isFalse hstats =>
    obtain rfl := some.inj hdata
    exact h.writeCells_other hm hkeyed hfit (eq_other hstats)

/-- Every offset is behind the last value at most, when those before it have been written. -/
def noGaps : ℕ → List ℕ → Bool
  | _, [] => true
  | numValues, offset :: offsets =>
    decide (offset ≤ numValues) && noGaps (max numValues (offset + 1)) offsets

/-- The loop of `writeChunkAt`, when the statistics contain its rows already. -/
lemma Tracks.writeEntries (h : Tracks key zero { data with inMemoryStats := stats } I)
    (hwrite : entries.foldlM (fun data entry =>
      if multiplicityOne && data.kind != .bool && (data.cells[entry.2]?).any (·.2) then none
      else data.writeCells entry.2 [entry.1]) data = some data')
    (hkeyed : KeyedRows key (entries.map Prod.fst))
    (hfit : NullsFit data.hasNullData (entries.map Prod.fst))
    (hgap : data.kind = .internalID → noGaps data.numValues (entries.map Prod.snd) = true)
    (hI : data.kind ≠ .other → ∀ row ∈ entries.map Prod.fst, row.2 = false →
      ∀ k, key row.1 = some k → Interval.pure k ≤ I) :
    Tracks key zero { data' with inMemoryStats := stats } I ∧
      data'.inMemoryStats = data.inMemoryStats := by
  induction entries generalizing data with
  | nil =>
    obtain rfl := some.inj hwrite
    exact ⟨h, rfl⟩
  | cons entry entries ih =>
    obtain ⟨m, hm, hrest⟩ := Fold.foldlM_cons_some.mp hwrite
    have hm : data.writeCells entry.2 [entry.1] = some m := by
      split at hm
      · cases hm
      · exact hm
    obtain ⟨hkind, hhasNull, hstats, hnum⟩ := writeCells_fields hm
    rw [map_cons] at hkeyed hfit hI hgap
    rw [noGaps, Bool.and_eq_true, decide_eq_true_eq] at hgap
    rw [keyedRows_def, forall_mem_cons] at hkeyed
    simp only [NullsFit, forall_mem_cons] at hfit hI
    -- the first entry, then the rest
    have htracks := h.writeCells hm (keyedRows_def.mpr (forall_mem_singleton.mpr hkeyed.1))
      (fun hn => forall_mem_singleton.mpr (hfit hn).1) (fun hid => (hgap hid).1)
      fun hne => forall_mem_singleton.mpr (hI hne).1
    rw [← hstats]
    refine ih htracks hrest (keyedRows_def.mpr hkeyed.2) ?_ ?_ ?_
    · rw [hhasNull]
      exact fun hn => (hfit hn).2
    · rw [hkind, hnum]
      exact fun hid => (hgap hid).2
    · rw [hkind]
      exact fun hne => (hI hne).2

section

variable (h : Tracks key zero data I)

include h

lemma Tracks.writeChunkAt
    (hwrite : data.writeChunkAt key entries noNulls multiplicityOne = some data')
    (hkeyed : KeyedRows key (entries.map Prod.fst))
    (hfit : NullsFit data.hasNullData (entries.map Prod.fst))
    (hgap : data.kind = .internalID → noGaps data.numValues (entries.map Prod.snd) = true) :
    ∃ I', Tracks key zero data' I' := by
  rw [InMemoryData.writeChunkAt] at hwrite
  obtain ⟨m, hm, hdata⟩ := bind_eq_some_iff.mp hwrite
  split at hdata
  case isTrue hstats =>
    obtain rfl := some.inj hdata
    -- the statistics are widened first
    have hwide := h.widen (ne_other hstats)
      (represents_updateBy h.represents (represents_getMinMax (hkeyed.included noNulls)))
    refine ⟨_, (hwide.writeEntries hm hkeyed hfit hgap ?_).1⟩
    intro _ row hrow hnull k hk
    exact (pure_le_hull (mem_included hrow hnull noNulls) hk).trans le_sup_right
  case isFalse hstats =>
    obtain rfl := some.inj hdata
    obtain ⟨htracks, heq⟩ := Tracks.writeEntries h hm hkeyed hfit hgap
      fun hne => absurd (eq_other hstats) hne
    rw [← heq] at htracks
    exact ⟨I, htracks⟩

lemma Tracks.setValue {value : V} {pos : ℕ}
    (hwrite : data.setValue key value pos = some data') (hkeyed : (key value).isSome)
    (hgap : data.kind = .internalID → pos ≤ data.numValues) : ∃ I', Tracks key zero data' I' := by
  obtain ⟨k, hk⟩ := isSome_iff_exists.mp hkeyed
  rw [InMemoryData.setValue, InMemoryData.writeValuesOnly] at hwrite
  split at hwrite
  case isFalse => cases hwrite
  case isTrue hle =>
  rw [length_singleton] at hle hwrite
  obtain ⟨cell, hcell⟩ : ∃ cell, data.cells.drop pos = cell :: data.cells.drop (pos + 1) :=
    ⟨data.cells[pos], drop_eq_getElem_cons (by omega)⟩
  have hmem : cell ∈ data.cells := by
    apply mem_of_mem_drop
    rw [hcell]
    exact mem_cons_self
  -- the cell keeps its null bit
  have hnulls : TracksNulls data.nullStats
      (data.cells.take pos ++ [(value, cell.2)] ++ data.cells.drop (pos + 1)) := by
    obtain ⟨J, hrep, hJ⟩ := h.nulls
    refine ⟨J, hrep, fun c hc => ?_⟩
    obtain hold | hnew := mem_overwrite hc
    · exact hJ c hold
    · rw [mem_singleton.mp hnew]
      exact hJ cell hmem
  have hkeyed' : KeyedRows key [(value, cell.2)] :=
    keyedRows_def.mpr (forall_mem_singleton.mpr hkeyed)
  have hfit : NullsFit data.hasNullData [(value, cell.2)] := fun hn =>
    forall_mem_singleton.mpr (h.noNullData hn cell hmem)
  rw [hcell] at hwrite
  obtain ⟨m, hm, hdata⟩ := bind_eq_some_iff.mp hwrite
  obtain rfl := some.inj hm
  split at hdata
  case isTrue hstats =>
    obtain rfl := some.inj hdata
    refine ⟨_, (h.widen (ne_other hstats) (represents_updateBy h.represents
      (represents_value hk))).overwrite hle hkeyed' hfit hgap (fun _ => ?_) hnulls⟩
    refine forall_mem_singleton.mpr fun _ a ha => ?_
    rw [← some.inj (hk.symm.trans ha)]
    exact le_sup_right
  case isFalse hstats =>
    obtain rfl := some.inj hdata
    exact ⟨I, h.overwrite hle hkeyed' hfit hgap (fun hne => absurd (eq_other hstats) hne) hnulls⟩

lemma Tracks.writeVector
    (hwrite : data.writeVector key row offset = some data') (hkeyed : KeyedRows key [row])
    (hfit : NullsFit data.hasNullData [row]) (hkind : data.kind ≠ .internalID) :
    ∃ I', Tracks key zero data' I' := by
  have hgap : data.kind = .internalID → offset ≤ data.numValues := fun hid => absurd hid hkind
  obtain ⟨k, hk⟩ := hkeyed.key_eq_some mem_cons_self
  have hcell : (do
      let cell ← data.cells[offset]?
      let data' ← data.writeCells offset [(if row.2 then cell.1 else row.1, row.2)]
      if data.kind.isStorageValueType then
        return { data' with inMemoryStats :=
          data.inMemoryStats.updateBy key (getMinMax key (nonNull [row])) }
      else return data') = some data' → (¬ data.kind.isStorageValueType = true →
        data.kind = .other) → ∃ I', Tracks key zero data' I' := by
    intro hwrite hother
    obtain ⟨cell, hcell, hwrite⟩ := bind_eq_some_iff.mp hwrite
    obtain ⟨m, hm, hdata⟩ := bind_eq_some_iff.mp hwrite
    -- a null row keeps the value of the cell
    have hkeyed' : KeyedRows key [(if row.2 then cell.1 else row.1, row.2)] := by
      refine keyedRows_def.mpr (forall_mem_singleton.mpr ?_)
      split
      · exact keyedRows_def.mp h.keyed cell (mem_of_getElem? hcell)
      · exact hkeyed _ mem_cons_self
    have hfit' : NullsFit data.hasNullData [(if row.2 then cell.1 else row.1, row.2)] :=
      fun hn => forall_mem_singleton.mpr (hfit hn row mem_cons_self)
    split at hdata
    case isTrue hstats =>
      obtain rfl := some.inj hdata
      have hne : data.kind ≠ .other := by
        intro hk
        rw [hk] at hstats
        cases hstats
      refine h.writeCells_updateBy hm hkeyed' hfit' hgap hne
        (represents_getMinMax (hkeyed.included false)) (forall_mem_singleton.mpr ?_)
      intro hnull a ha
      rw [show row.2 = false from hnull, if_neg Bool.false_ne_true] at ha
      exact pure_le_hull (mem_nonNull mem_cons_self hnull) ha
    case isFalse hstats =>
      obtain rfl := some.inj hdata
      exact h.writeCells_other hm hkeyed' hfit' (hother hstats)
  rw [InMemoryData.writeVector] at hwrite
  cases hkd : data.kind with
  | internalID => exact absurd hkd hkind
  | bool =>
    rw [hkd] at hwrite
    obtain ⟨m, hm, hdata⟩ := bind_eq_some_iff.mp hwrite
    obtain rfl := some.inj hdata
    refine h.writeCells_updateBy hm hkeyed hfit hgap (by rw [hkd]; nofun) (represents_value hk)
      (forall_mem_singleton.mpr fun _ a ha => ?_)
    rw [some.inj (hk.symm.trans ha)]
  | storageValue =>
    rw [hkd] at hwrite hcell
    exact hcell hwrite fun hs => absurd rfl hs
  | other =>
    rw [hkd] at hwrite hcell
    exact hcell hwrite fun _ => rfl

end

lemma Tracks.resize (hzero : (key zero).isSome) (h : Tracks key zero data I) (newCapacity : ℕ) :
    Tracks key zero (data.resize zero newCapacity) I := by
  -- the cells that are added are zero and not null
  have hcells : ∀ i cell, (data.resize zero newCapacity).cells[i]? = some cell →
      data.cells[i]? = some cell ∨ (cell = (zero, false) ∧ data.cells.length ≤ i) := by
    intro i cell hi
    by_cases hlt : i < data.cells.length
    · rw [InMemoryData.resize, getElem?_append_left hlt] at hi
      exact .inl hi
    · rw [InMemoryData.resize, getElem?_append_right (by omega)] at hi
      exact .inr ⟨(mem_replicate.mp (mem_of_getElem? hi)).2, by omega⟩
  have hmem : ∀ cell ∈ (data.resize zero newCapacity).cells,
      cell ∈ data.cells ∨ cell = (zero, false) := by
    intro cell hcell
    obtain ⟨i, hi⟩ := getElem?_of_mem hcell
    obtain hold | ⟨hnew, -⟩ := hcells i cell hi
    · exact .inl (mem_of_getElem? hold)
    · exact .inr hnew
  refine ⟨h.represents, h.unreported, ?_, ?_, ?_, ?_, ?_⟩
  · show data.numValues ≤ (data.cells ++ _).length
    rw [length_append]
    exact Nat.le_add_right_of_le h.inBuffer
  · refine keyedRows_def.mpr fun cell hcell => ?_
    obtain hold | rfl := hmem cell hcell
    · exact keyedRows_def.mp h.keyed cell hold
    · exact hzero
  · intro i cell hi hnull hreported k hk
    obtain hold | ⟨rfl, hle⟩ := hcells i cell hi
    · exact h.covered i cell hold hnull hreported k hk
    · obtain hs | ⟨-, hlt⟩ := hreported
      · rw [metadataHull, if_pos hs]
        exact le_sup_of_le_right (pure_le_hull mem_cons_self hk)
      · exact absurd (h.inBuffer.trans hle) (not_le.mpr hlt)
  · obtain ⟨J, hrep, hJ⟩ := h.nulls
    refine ⟨J, hrep, fun cell hcell => ?_⟩
    obtain hold | rfl := hmem cell hcell
    · exact hJ cell hold
    · exact le_sup_right
  · intro hn cell hcell
    obtain hold | rfl := hmem cell hcell
    · exact h.noNullData hn cell hold
    · rfl

end Ladybug.ZoneMap
