import Ladybug.Storage.SharedNodeGroup
import Ladybug.Storage.Equiv.NodeGroup

/-!
# Correctness of a node group with several writers

The rows of all transactions lie in the order of the appends, each with the stamp of its
transaction. `LaggedRep` represents a chunked group in the middle of a commit or a rollback.
-/

namespace Ladybug

open Mvcc VersionInfo List ChunkedNodeGroup
open Lag (committing rollingBack)
open Option (map_eq_some_iff map_some)

variable {cap m : ℕ} {V : Type}

/-! ### A chunked group during a commit or a rollback -/

/-- A group in memory with the rows `rows`, whose version info may lag behind their stamps. -/
structure LaggedRep (lag : Lag) (chunkCap start : ℕ) (rows : List (StampedRow m V))
    (g : ChunkedNodeGroup cap m V) : Prop where
  start_eq : g.startRowIdx = start
  numRows_eq : g.numRows = rows.length
  chunks_take : ∀ c, (g.chunks c).take rows.length = rows.map (·.2 c)
  inMemory : g.residencyState = .inMemory
  capacity_eq : g.capacity = chunkCap
  length_le : rows.length ≤ chunkCap
  fresh : g.versionInfo = none → rows = []
  versions : ∀ vi ∈ g.versionInfo, Rep lag false rows.length (insOf rows) (fun _ => none) vi

variable {id start ts startRow chunkCap n : ℕ} {new : List (Fin m → V)}
  {rows : List (StampedRow m V)} {g : ChunkedNodeGroup cap m V}

section Lagged

variable {lag : Lag}

lemma LaggedRep.groupRep (h : LaggedRep Lag.none chunkCap start rows g) :
    GroupRep start rows g := by
  refine ⟨h.start_eq, h.numRows_eq, h.chunks_take, ?_⟩
  cases hvi : g.versionInfo with
  | none =>
    rw [h.fresh hvi]
    exact nofun
  | some vi => exact h.versions vi hvi

lemma MemRep.laggedRep (h : MemRep chunkCap start rows g) :
    LaggedRep Lag.none chunkCap start rows g :=
  ⟨h.start_eq, h.numRows_eq, h.chunks_take, h.inMemory, h.capacity_eq, h.length_le, h.fresh,
    fun _ hvi => versionsRep_some h.toGroupRep hvi⟩

lemma LaggedRep.startLag (h : LaggedRep Lag.none chunkCap start rows g) (lag : Lag) :
    LaggedRep lag chunkCap start rows g :=
  { h with versions := fun vi hvi => (h.versions vi hvi).startLag lag }

/-- The commit ends when no row is left. -/
lemma LaggedRep.endCommit (h : LaggedRep (committing id ts) chunkCap start rows g)
    (hrows : ∀ row ∈ rows, row.1 ≠ .active id) : LaggedRep Lag.none chunkCap start rows g := by
  refine { h with versions := fun vi hvi => (h.versions vi hvi).endCommit fun row hrow => ?_ }
  obtain ⟨r, hr, hact⟩ := map_eq_some_iff.mp hrow
  exact hrows r (mem_of_getElem? hr) hact

/-- A rollback is complete when no row of the transaction is left. -/
lemma LaggedRep.endRollback (h : LaggedRep (rollingBack (· = .active id)) chunkCap start rows g)
    (hrows : ∀ row ∈ rows, row.1 ≠ .active id) : LaggedRep Lag.none chunkCap start rows g := by
  refine { h with
    versions := fun vi hvi => (h.versions vi hvi).endRollback ?_ (by simp [OwnStamp]) }
  rintro row ⟨o, ho, hrow⟩
  obtain ⟨r, hr, hact⟩ := map_eq_some_iff.mp hrow
  exact hrows r (mem_of_getElem? hr) (hact.trans ho)

lemma LaggedRep.placed (h : LaggedRep lag chunkCap start rows g) : Placed start rows g :=
  ⟨h.start_eq, h.numRows_eq⟩

end Lagged

/-- The rows `startRow, …, startRow + n - 1` with a new stamp. -/
def restamp (s : Stamp) (startRow n : ℕ) (rows : List (StampedRow m V)) :
    List (StampedRow m V) :=
  rows.mapIdx fun i row => if startRow ≤ i ∧ i < startRow + n then (s, row.2) else row

section

variable (s : Stamp)

@[simp] lemma length_restamp (startRow n : ℕ) (rows : List (StampedRow m V)) :
    (restamp s startRow n rows).length = rows.length := length_mapIdx

lemma map_snd_restamp (startRow n : ℕ) (rows : List (StampedRow m V)) :
    (restamp s startRow n rows).map Prod.snd = rows.map Prod.snd := by
  refine ext_getElem? fun i => ?_
  rw [restamp, getElem?_map, getElem?_mapIdx, getElem?_map]
  cases rows[i]? with
  | none => rfl
  | some row =>
    simp only [map_some]
    split_ifs <;> rfl

/-- Restamping stamps a range. -/
lemma insOf_restamp (hle : startRow + n ≤ rows.length) :
    insOf (restamp s startRow n rows) = stampRange (insOf rows) startRow n (some s) := by
  funext row
  unfold insOf stampRange restamp
  rw [getElem?_mapIdx]
  cases hget : rows[row]? with
  | none =>
    have := getElem?_eq_none_iff.mp hget
    rw [if_neg (by omega)]
    simp [hget]
  | some r =>
    simp only [hget, map_some]
    split_ifs <;> rfl

lemma restamp_zero (startRow : ℕ) (rows : List (StampedRow m V)) :
    restamp s startRow 0 rows = rows := by
  unfold restamp
  refine ext_getElem? fun i => ?_
  rw [getElem?_mapIdx]
  cases rows[i]? with
  | none => rfl
  | some row => exact congrArg some (if_neg (by omega))

/-- A range of consecutive groups: the rows of the first group from row `startRow` on, and the
rest of the range in the groups behind it. -/
lemma restamp_append (n : ℕ) (rest : List (StampedRow m V)) (hle : startRow ≤ rows.length) :
    restamp s startRow n (rows ++ rest)
      = restamp s startRow (min n (rows.length - startRow)) rows
        ++ restamp s 0 (n - min n (rows.length - startRow)) rest := by
  unfold restamp
  rw [mapIdx_append]
  congr 1
  · refine ext_getElem? fun i => ?_
    rw [getElem?_mapIdx, getElem?_mapIdx]
    by_cases hi : i < rows.length
    · rw [getElem?_eq_getElem hi]
      simp only [map_some, Option.some.injEq]
      congr 1
      simp only [eq_iff_iff]
      omega
    · rw [getElem?_eq_none (by omega)]
      rfl
  · congr 1
    funext i row
    congr 1
    simp only [eq_iff_iff]
    omega

lemma restamp_append_right (j n : ℕ) (rows rest : List (StampedRow m V)) :
    restamp s (rows.length + j) n (rows ++ rest) = rows ++ restamp s j n rest := by
  rw [restamp, mapIdx_append]
  congr 1
  · refine ext_getElem? fun i => ?_
    rw [getElem?_mapIdx]
    by_cases hi : i < rows.length
    · rw [getElem?_eq_getElem hi]
      exact congrArg some (if_neg (by omega))
    · rw [getElem?_eq_none (by omega)]
      rfl
  · congr 1
    funext i row
    congr 1
    simp only [eq_iff_iff]
    omega

end

namespace ChunkedNodeGroup

/-- Committing rows of a group. -/
lemma commitInsert_lagged (hcap : 0 < cap)
    (hid : StampOk (some (.active id))) (hts : ts < startTransactionID) (hts0 : ts ≠ 0)
    (hok : StampsOk rows)
    (h : LaggedRep (committing id ts) chunkCap start rows g) {j k : ℕ} (hk : 0 < k)
    (hle : j + k ≤ rows.length) (hrange : ∀ i, j ≤ i → i < j + k →
      insOf rows i = some (.active id) ∨ insOf rows i = some (.committed ts)) :
    ∃ g', g.commitInsert ts j k = some g' ∧
      LaggedRep (committing id ts) chunkCap start (restamp (.committed ts) j k rows) g' := by
  cases hvi : g.versionInfo with
  | none =>
    have hnil := h.fresh hvi
    rw [hnil, length_nil] at hle
    omega
  | some vi =>
    obtain ⟨vi', hrun, hrep⟩ := VersionInfo.commitInsert_spec hcap (h.versions vi hvi) hid hts hts0
      hok.insOf (fun row hle' hlt => ⟨by omega, hrange row hle' hlt⟩)
    refine ⟨{ g with versionInfo := some vi' }, ?_, h.start_eq, ?_, fun c => ?_, h.inMemory,
      h.capacity_eq, ?_, nofun, ?_⟩
    · unfold commitInsert
      simp [hvi, hrun]
    · rw [length_restamp]
      exact h.numRows_eq
    · have hmap := congrArg (List.map (· c)) (map_snd_restamp (.committed ts) j k rows)
      rw [map_map, map_map] at hmap
      rw [length_restamp]
      exact (h.chunks_take c).trans hmap.symm
    · rw [length_restamp]
      exact h.length_le
    · intro w hw
      obtain rfl := Option.some.inj hw
      rw [length_restamp, insOf_restamp _ hle]
      exact hrep

/-- Rolling back the last rows of a group. -/
lemma rollbackInsert_lagged (hcap : 0 < cap)
    (hid : StampOk (some (.active id))) (hok : StampsOk rows) (hnew : new ≠ [])
    (h : LaggedRep (rollingBack (· = .active id)) chunkCap start
      (rows ++ stamped (.active id) new) g) :
    ∃ g', g.rollbackInsert rows.length new.length = some g' ∧
      LaggedRep (rollingBack (· = .active id)) chunkCap start rows g' := by
  have hpos : 0 < new.length := length_pos_of_ne_nil hnew
  have hlen : (rows ++ stamped (.active id) new).length = rows.length + new.length := by
    rw [length_append, length_stamped]
  have hle : rows.length ≤ chunkCap := by
    have := h.length_le
    omega
  by_cases hzero : rows.length = 0
  · -- the group is emptied
    obtain rfl := eq_nil_of_length_eq_zero hzero
    exact ⟨{ g.truncate 0 with versionInfo := none }, if_pos rfl, h.start_eq, rfl, fun _ => rfl,
      h.inMemory, h.capacity_eq, Nat.zero_le _, fun _ => rfl, nofun⟩
  · cases hvi : g.versionInfo with
    | none =>
      have hnil := congrArg List.length (h.fresh hvi)
      rw [hlen, length_nil] at hnil
      omega
    | some vi =>
      obtain ⟨vi', hrun, hrep⟩ := VersionInfo.rollbackInsert_spec hcap (h.versions vi hvi)
        (by rintro _ rfl; exact hid) (by simp) (hok.append_stamped hid new).insOf
        (fun row hle' hlt => ⟨by omega,
          .inr ⟨_, rfl, insOf_append_active rows id new row hle' hlt⟩⟩)
        (fun row hle' => insOf_of_le hle') (fun _ _ => .inl rfl)
      -- no row is left behind the first ones
      have hins : stampRange (insOf (rows ++ stamped (.active id) new)) rows.length new.length none
          = insOf rows := by
        rw [insOf_append_stamped]
        funext row
        unfold stampRange
        split_ifs with hrow
        · exact (insOf_of_le hrow.1).symm
        · rfl
      rw [hins] at hrep
      refine ⟨{ g with versionInfo := some vi', numRows := rows.length }, ?_, h.start_eq, rfl,
        fun c => ?_, h.inMemory, h.capacity_eq, hle, nofun, ?_⟩
      · unfold rollbackInsert
        have hnum : ¬g.numRows ≤ rows.length := by
          rw [h.numRows_eq, hlen]
          omega
        rw [if_neg hzero, if_neg hnum, hvi]
        simp [hrun]
      · have htake := congrArg (List.take rows.length) (h.chunks_take c)
        rw [take_take, Nat.min_eq_left (by omega)] at htake
        rw [show g.chunks c = _ from rfl, htake, map_append]
        exact take_left' (length_map ..)
      · intro w hw
        obtain rfl := Option.some.inj hw
        exact hrep.mono (by omega)

end ChunkedNodeGroup

namespace NodeGroup

variable {P Q : ℕ → List (StampedRow m V) → ChunkedNodeGroup cap m V → Prop}

/-- The loop over the groups gives a range of rows a new stamp, when its body does so on the part
of the range in one group. -/
lemma applyFuncLoop_restamp (own : StampedRow m V → Prop) (s : Stamp)
    (func : ChunkedNodeGroup cap m V → ℕ → ℕ → Option (ChunkedNodeGroup cap m V))
    (hnum : ∀ start rows g, P start rows g → g.numRows = rows.length)
    (hfunc : ∀ start rows g j k, P start rows g → StampsOk rows → 0 < k → j + k ≤ rows.length →
      (∀ i, j ≤ i → i < j + k → ∀ row ∈ rows[i]?, own row) →
      ∃ g', func g j k = some g' ∧ P start (restamp s j k rows) g')
    {gs : List (ChunkedNodeGroup cap m V)} {rss : List (List (StampedRow m V))}
    (h : GroupsRep P start gs rss) (hok : StampsOk rss.flatten) (hne : ∀ rows ∈ rss, rows ≠ []) :
    ∀ (j n : ℕ), (∀ rows ∈ rss.head?, j < rows.length) → j + n ≤ rss.flatten.length →
    (∀ i, j ≤ i → i < j + n → ∀ row ∈ rss.flatten[i]?, own row) →
    ∃ gs' rss', applyFuncLoop func gs j n = some gs' ∧ GroupsRep P start gs' rss' ∧
      rss'.map List.length = rss.map List.length ∧ rss'.flatten = restamp s j n rss.flatten := by
  induction h with
  | nil =>
    intro j n _ hle _
    obtain rfl : n = 0 := by simp at hle; omega
    exact ⟨[], [], applyFuncLoop_zero .., .nil _, rfl, rfl⟩
  | @cons start g rows gs rss head tail ih =>
    intro j n hhead hle hown
    have hj : j < rows.length := hhead rows rfl
    rw [flatten_cons] at hle hown hok
    rw [length_append] at hle
    by_cases hn : n = 0
    · subst hn
      exact ⟨g :: gs, rows :: rss, applyFuncLoop_zero .., .cons head tail, rfl,
        (restamp_zero ..).symm⟩
    · set k := min n (rows.length - j) with hk
      have hkle : j + k ≤ rows.length := by omega
      -- the rows of this group, then those of the rest
      obtain ⟨g', hg', hrep'⟩ := hfunc start rows g j k head (fun row hrow => hok row (by
        simp [hrow])) (by omega) hkle (fun i hji hik row hrow => hown i hji (by omega) row (by
        rw [getElem?_append_left (by omega)]
        exact hrow))
      have hpos : ∀ r ∈ rss.head?, 0 < r.length := fun r hr =>
        length_pos_of_ne_nil (hne r (by simp [mem_of_mem_head? hr]))
      obtain ⟨gs', rss', hloop, hreps', hlens', hflat'⟩ := ih (fun row hrow => hok row (by
        rw [mem_append]; exact .inr hrow)) (fun r hr => hne r (by simp [hr])) 0 (n - k)
        hpos (by omega) (fun i _ hi row hrow => hown (rows.length + i) (by omega) (by omega) row (by
          rw [getElem?_append_right (by omega), Nat.add_sub_cancel_left]
          exact hrow))
      refine ⟨g' :: gs', restamp s j k rows :: rss', ?_, .cons hrep' ?_, ?_, ?_⟩
      · rw [applyFuncLoop, if_neg hn, hnum start rows g head]
        simp [← hk, hg', hloop]
      · rw [length_restamp]
        exact hreps'
      · rw [map_cons, map_cons, length_restamp, hlens']
      · rw [flatten_cons, flatten_cons, hflat', restamp_append s n _ hj.le]

section Records

variable {old : List (StampedRow m V)} {pre mems : List (ChunkedNodeGroup cap m V)}
  {rss : List (List (StampedRow m V))} {ng : NodeGroup cap m V} {lag : Lag}

/-- The groups of a node group that has rows in memory are not empty. -/
lemma NodeRep.rows_ne (h : NodeRep P chunkCap start old pre mems rss ng)
    (hpos : 0 < rss.flatten.length) : ∀ rows ∈ rss, rows ≠ [] := by
  rcases h.nonempty with hne | ⟨-, rfl⟩
  · exact hne
  · simp at hpos

/-- Committing rows across groups. -/
lemma commitInsert_range (hcap : 0 < cap) (hid : StampOk (some (.active id)))
    (hts : ts < startTransactionID) (hts0 : ts ≠ 0)
    (h : NodeRep (LaggedRep (committing id ts) chunkCap) chunkCap start old pre mems rss ng)
    (hok : StampsOk rss.flatten) {q : ℕ} (hle : q + n ≤ rss.flatten.length)
    (hrange : ∀ i, q ≤ i → i < q + n → insOf rss.flatten i = some (.active id) ∨
      insOf rss.flatten i = some (.committed ts)) :
    ∃ mems' rss' ng', ng.applyFuncToChunkedGroups chunkCap (commitInsert ts)
        (start + old.length + q) n = some ng' ∧
      NodeRep (LaggedRep (committing id ts) chunkCap) chunkCap start old pre mems' rss' ng' ∧
      rss'.flatten = restamp (.committed ts) q n rss.flatten := by
  have hstart : start + old.length + q ≤ ng.numRows := by rw [h.numRows]; omega
  by_cases hn : n = 0
  · subst hn
    exact ⟨mems, rss, ng, applyFuncToChunkedGroups_zero _ _ _ hstart, h, (restamp_zero ..).symm⟩
  · have hne := NodeRep.rows_ne h (by omega)
    obtain ⟨A, b, B, j, rfl, hA, hj, hq⟩ := exists_split_of_full h.mems.full
      (show q < rss.flatten.length by omega)
    obtain ⟨gs1, gs, rfl, h1, h2⟩ := h.mems.reps.split
    have hflat : (A ++ b :: B).flatten = A.flatten ++ (b :: B).flatten := flatten_append
    rw [hflat] at hok hle hrange ⊢
    rw [length_append] at hle
    -- the loop, from the group of the first row on
    obtain ⟨gs', rss', hloop, hreps', hlens', hflat'⟩ := applyFuncLoop_restamp
      (P := LaggedRep (committing id ts) chunkCap)
      (fun row => row.1 = .active id ∨ row.1 = .committed ts) (.committed ts)
      (commitInsert ts) (fun _ _ _ hm => hm.numRows_eq)
      (fun start' rows g j' k hg hrows hk hjk hown =>
        commitInsert_lagged hcap hid hts hts0 hrows hg hk hjk
          fun i hji hik => by
            have hi : i < rows.length := by omega
            have := hown i hji hik rows[i] (getElem?_eq_getElem hi)
            rw [insOf, getElem?_eq_getElem hi]
            simpa using this)
      h2 (fun row hrow => hok row (mem_append_right _ hrow))
      (fun rows hrows => hne rows (mem_append_right _ hrows)) j n
      (by rintro rows ⟨⟩; exact hj) (by omega)
      (fun i hji hi row hrow => by
        have := hrange (A.flatten.length + i) (by omega) (by omega)
        rw [insOf, getElem?_append_right (by omega), Nat.add_sub_cancel_left] at this
        rw [Option.mem_def.mp hrow] at this
        simpa using this)
    cases h2 with
    | @cons _ g _ gs2 _ hg h2 =>
      have hsplit : ng.chunkedGroups = pre ++ gs1 ++ g :: gs2 := by rw [h.groups, append_assoc]
      have hfind := find_spec h.persistent rfl (h1.mono fun _ _ _ hm => hm.placed) hA hg.placed
        (h.mems.le b (by simp)) hj hsplit
      have hlens : (A ++ rss').map List.length = (A ++ b :: B).map List.length := by
        rw [map_append, map_append, hlens']
      refine ⟨gs1 ++ gs', A ++ rss', ⟨pre ++ (gs1 ++ gs'), ng.numRows⟩, ?_, ⟨rfl, h.persistent,
        h.mems.congr (h1.append hreps') hlens, ?_, .inl ?_⟩, ?_⟩
      · rw [applyFuncToChunkedGroups, hq, hfind]
        rw [hq] at hstart
        simp only [guard, if_pos hstart, Option.pure_def, Option.bind_eq_bind, Option.bind_some]
        rw [hsplit, drop_left, take_left, hloop, Option.bind_some, append_assoc]
      · rw [h.numRows, length_flatten, length_flatten, hlens]
      · intro rows hmem hnil
        have h0 : 0 ∈ (A ++ rss').map List.length :=
          mem_map.mpr ⟨rows, hmem, by rw [hnil, length_nil]⟩
        rw [hlens] at h0
        obtain ⟨rows', hmem', h0⟩ := mem_map.mp h0
        exact hne rows' hmem' (eq_nil_of_length_eq_zero h0)
      · rw [flatten_append, hflat', hq, restamp_append_right]

lemma groups_numRows_ne_zero (hpre : PersistentRep start old pre) {base : ℕ}
    (hmems : GroupsRep (LaggedRep lag chunkCap) base mems rss) (hne : ∀ rows ∈ rss, rows ≠ []) :
    ∀ g ∈ pre ++ mems, g.numRows ≠ 0 := by
  intro g hg
  rcases mem_append.mp hg with hg | hg
  · exact persistent_numRows_ne_zero hpre g hg
  · exact numRows_ne_zero (hmems.mono fun _ _ _ hm => hm.placed) hne g hg

/-- The end of a rollback that has nothing to undo: an empty group is dropped. -/
lemma rollbackInsert_nothing
    (h : NodeRep (LaggedRep lag chunkCap) chunkCap start old pre mems rss ng) :
    ∃ mems' rss', NodeRep (LaggedRep lag chunkCap) chunkCap start old pre mems' rss'
      (ng.rollbackInsert ng.numRows) ∧ rss'.flatten = rss.flatten := by
  rcases h.nonempty with hne | ⟨rfl, rfl⟩
  · refine ⟨mems, rss, ?_, rfl⟩
    rw [rollbackInsert_groups (pre ++ mems) []
      (groups_numRows_ne_zero h.persistent h.mems.reps hne) (by simp)
      (by rw [h.groups, append_nil])]
    exact ⟨rfl, h.persistent, h.mems, h.numRows, h.nonempty⟩
  · refine ⟨[], [], ?_, rfl⟩
    rw [rollbackInsert_groups [] mems (by simp) ?_ h.groups]
    · exact ⟨rfl, h.persistent, ⟨.nil _, by simp, by simp⟩, h.numRows, .inl (by simp)⟩
    · intro g hg
      cases h.mems.reps with
      | cons head tail =>
        cases tail
        rw [mem_singleton.mp hg]
        exact head.numRows_eq

/-- Rolling back the last rows across groups. -/
lemma rollbackInsert_suffix (hcap : 0 < cap) (hid : StampOk (some (.active id)))
    (h : NodeRep (LaggedRep (rollingBack (· = .active id)) chunkCap) chunkCap start old pre
      mems rss ng) (hok : StampsOk rows) (hflat : rss.flatten = rows ++ stamped (.active id) new) :
    ∃ ng1 mems' rss', ng.applyFuncToChunkedGroups chunkCap ChunkedNodeGroup.rollbackInsert
        (start + old.length + rows.length) new.length = some ng1 ∧
      NodeRep (LaggedRep (rollingBack (· = .active id)) chunkCap) chunkCap start old pre
        mems' rss' (ng1.rollbackInsert (start + old.length + rows.length)) ∧
      rss'.flatten = rows := by
  have hnum : ng.numRows = start + old.length + (rows.length + new.length) := by
    rw [h.numRows, hflat, length_append, length_stamped]
  by_cases hnil : new = []
  · subst hnil
    have hrows : rss.flatten = rows := by rw [hflat]; exact append_nil rows
    have hnum' : start + old.length + rows.length = ng.numRows := hnum.symm
    obtain ⟨mems', rss', h', hflat'⟩ := rollbackInsert_nothing h
    refine ⟨ng, mems', rss', applyFuncToChunkedGroups_zero _ _ _ hnum'.le, ?_, hflat'.trans hrows⟩
    rw [hnum']
    exact h'
  · have hpos : 0 < rss.flatten.length := by
      rw [hflat, length_append, length_stamped]
      have := length_pos_of_ne_nil hnil
      omega
    obtain ⟨gs1, g, gs2, A, o, w, ws, hmems, hrows, rfl, -, hA, hw, hws, hg1, hg, hg2⟩ :=
      exists_appended hnil h hflat (NodeRep.rows_ne h hpos)
    have hchunk : 0 < chunkCap := by
      have := hg.length_le
      rw [length_append, length_stamped] at this
      have := length_pos_of_ne_nil hw
      omega
    obtain ⟨g', hg', hrep'⟩ := rollbackInsert_lagged hcap hid
      (fun row hrow => hok row (by rw [hrows]; simp [hrow])) hw hg
    obtain ⟨gs2', hloop, hgs2'⟩ := applyFuncLoop_rollbackInsert hws
      (hg2.mono fun _ _ _ hm => hm.placed)
    have hlen : rows.length = A.flatten.length + o.length := by rw [hrows, length_append]
    have happly := applyFuncToChunkedGroups_spec h.persistent rfl
      (hg1.mono fun _ _ _ hm => hm.placed) hA hg.placed hg.length_le hw
      (h.groups.trans (by rw [hmems])) (by omega) hg' hloop
    -- the groups before the batch are not empty
    have hAne : ∀ a ∈ A, a ≠ [] := by
      intro a ha ha0
      have := hA a ha
      rw [ha0, length_nil] at this
      omega
    have hgs1 := groups_numRows_ne_zero h.persistent hg1 hAne
    rw [hlen, length_append, happly]
    by_cases ho : o = []
    · -- the rows start at the start of a group, which is emptied and dropped
      subst ho
      refine ⟨_, gs1, A, rfl, ?_, by simp [hrows]⟩
      rw [rollbackInsert_groups (pre ++ gs1) (g' :: gs2') hgs1 ?_ (by simp)]
      · exact ⟨rfl, h.persistent, ⟨hg1, fun a ha => hA a ((dropLast_sublist A).subset ha),
          fun a ha => (hA a ha).le⟩, by simp, .inl hAne⟩
      · intro x hx
        rcases mem_cons.mp hx with rfl | hx
        · exact hrep'.numRows_eq
        · exact hgs2' x hx
    · -- the rows start in the middle of a group, which keeps its first rows
      have hne : ∀ a ∈ A ++ [o], a ≠ [] := by
        intro a ha
        rcases mem_append.mp ha with ha | ha
        · exact hAne a ha
        · rw [mem_singleton.mp ha]
          exact ho
      refine ⟨_, gs1 ++ [g'], A ++ [o], rfl, ?_, by simp [hrows]⟩
      rw [rollbackInsert_groups (pre ++ (gs1 ++ [g'])) gs2' ?_ hgs2' (by simp)]
      · exact ⟨rfl, h.persistent, MemsRep.snoc hg1 hA hrep' hrep'.length_le, by simp, .inl hne⟩
      · intro x hx
        rw [← append_assoc] at hx
        rcases mem_append.mp hx with hx | hx
        · exact hgs1 x hx
        · rw [mem_singleton.mp hx, hrep'.numRows_eq]
          exact fun h0 => ho (eq_nil_of_length_eq_zero h0)

end Records

end NodeGroup

/-! ### The rows and the undo buffers -/

/-- Row `i` of the rows from `base` on is one of the rows of the record. -/
def InsertRecord.Covers (r : InsertRecord) (base i : ℕ) : Prop :=
  r.startRow ≤ base + i ∧ base + i < r.startRow + r.numRows

/-- The insert records of the active transactions, over rows that start at row `base`: each record
covers rows of its transaction, and every row of an active transaction is covered. -/
structure Recorded (base : ℕ) (rows : List (StampedRow m V)) (records : List InsertRecord) :
    Prop where
  valid : ∀ r ∈ records, StampOk (some (.active r.transactionID))
  inRange : ∀ r ∈ records, base ≤ r.startRow ∧ r.startRow + r.numRows ≤ base + rows.length
  own : ∀ r ∈ records, ∀ i, r.Covers base i → insOf rows i = some (.active r.transactionID)
  covered : ∀ i id, insOf rows i = some (.active id) →
    ∃ r ∈ records, r.transactionID = id ∧ r.Covers base i
  sorted : records.Pairwise fun r r' => r.startRow + r.numRows ≤ r'.startRow

namespace Recorded

variable {base : ℕ} {records : List InsertRecord}

lemma nil (hrows : ∀ i id, insOf rows i ≠ some (.active id)) :
    Recorded base rows ([] : List InsertRecord) :=
  ⟨by simp, by simp, by simp, fun i id h => absurd h (hrows i id), .nil⟩

lemma append (h : Recorded base rows records) (hid : StampOk (some (.active id)))
    (new : List (Fin m → V)) :
    Recorded base (rows ++ stamped (.active id) new)
      (records ++ [⟨id, base + rows.length, new.length⟩]) := by
  have hlen : (rows ++ stamped (.active id) new).length = rows.length + new.length := by
    rw [length_append, length_stamped]
  have hins : ∀ i, i < rows.length → insOf (rows ++ stamped (.active id) new) i = insOf rows i :=
    fun i hi => by rw [insOf, getElem?_append_left hi, insOf]
  refine ⟨fun r hr => ?_, fun r hr => ?_, fun r hr i hcov => ?_, fun i id' hi => ?_, ?_⟩
  · rcases mem_append.mp hr with hr | hr
    · exact h.valid r hr
    · rw [mem_singleton.mp hr]
      exact hid
  · rcases mem_append.mp hr with hr | hr
    · have := h.inRange r hr
      omega
    · rw [mem_singleton.mp hr]
      simp only
      omega
  · rcases mem_append.mp hr with hr | hr
    · have := h.inRange r hr
      have := hcov.2
      rw [hins i (by omega)]
      exact h.own r hr i hcov
    · obtain rfl := mem_singleton.mp hr
      obtain ⟨hle, hlt⟩ := hcov
      simp only at hle hlt
      exact insOf_append_active rows id new i (by omega) (by omega)
  -- a row of another transaction is covered as before
  · by_cases hlt : i < rows.length
    · rw [hins i hlt] at hi
      obtain ⟨r, hr, hrest⟩ := h.covered i id' hi
      exact ⟨r, mem_append_left _ hr, hrest⟩
    · have hlt' : i < rows.length + new.length := by
        by_contra hge
        rw [insOf_of_le (by omega)] at hi
        cases hi
      rw [insOf_append_active rows id new i (by omega) hlt'] at hi
      have hid' : id = id' := by simpa using hi
      exact ⟨_, mem_append_right _ (mem_singleton.mpr rfl), hid', by
        constructor <;> simp only <;> omega⟩
  · rw [pairwise_append]
    refine ⟨h.sorted, pairwise_singleton .., fun r hr r' hr' => ?_⟩
    rw [mem_singleton.mp hr']
    exact (h.inRange r hr).2

end Recorded

/-- The rows once transaction `id` has committed. -/
def commitRows (id ts : ℕ) (rows : List (StampedRow m V)) : List (StampedRow m V) :=
  rows.map fun row => (row.1.commit id ts, row.2)

/-- The rows once transaction `id` has rolled back. -/
def rollbackRows (id : ℕ) (rows : List (StampedRow m V)) : List (StampedRow m V) :=
  rows.filter (·.1 ≠ .active id)

/-- Committing changes the stamps of the transaction. -/
lemma insOf_commitRows (id ts : ℕ) (rows : List (StampedRow m V)) (i : ℕ) :
    insOf (commitRows id ts rows) i = (insOf rows i).map (Stamp.commit id ts) := by
  rw [insOf, commitRows, getElem?_map, insOf, Option.map_map, Option.map_map]
  rfl

/-- Rows are equal if values and stamps are. -/
lemma rows_ext {rows' : List (StampedRow m V)}
    (hsnd : rows.map Prod.snd = rows'.map Prod.snd) (hins : ∀ i, insOf rows i = insOf rows' i) :
    rows = rows' := by
  refine ext_getElem? fun i => ?_
  have hv := congrArg (·[i]?) hsnd
  have hs := hins i
  simp only [getElem?_map] at hv
  unfold insOf at hs
  cases hi : rows[i]? with
  | none =>
    rw [hi] at hv
    exact (Option.map_eq_none_iff.mp hv.symm).symm
  | some r =>
    rw [hi] at hv hs
    obtain ⟨r', hr', hsnd'⟩ := map_eq_some_iff.mp hv.symm
    rw [hr', map_some, map_some, Option.some.injEq] at hs
    rw [hr', Prod.ext hs hsnd'.symm]

namespace SharedNodeGroup

section Records

variable {old : List (StampedRow m V)} {pre mems : List (ChunkedNodeGroup cap m V)}
  {rss : List (List (StampedRow m V))} {ng : NodeGroup cap m V}

open NodeGroup

/-- A loop over insert records of one transaction commits the rows that they cover. -/
lemma commitRecords_spec (hcap : 0 < cap) (hid : StampOk (some (.active id)))
    (hts : ts < startTransactionID) (hts0 : ts ≠ 0) (rs : List InsertRecord)
    (h : NodeRep (LaggedRep (committing id ts) chunkCap) chunkCap start old pre mems rss ng)
    (hok : StampsOk rss.flatten) (hrs : ∀ r ∈ rs, start + old.length ≤ r.startRow ∧
      r.startRow + r.numRows ≤ start + old.length + rss.flatten.length ∧
      ∀ i, r.Covers (start + old.length) i →
        insOf rss.flatten i = some (.active id) ∨ insOf rss.flatten i = some (.committed ts)) :
    ∃ mems' rss' ng', rs.foldlM (commitRecord chunkCap ts) ng = some ng' ∧
      NodeRep (LaggedRep (committing id ts) chunkCap) chunkCap start old pre mems' rss' ng' ∧
      rss'.flatten.map Prod.snd = rss.flatten.map Prod.snd ∧
      ∀ i, insOf rss'.flatten i = insOf rss.flatten i ∧
          (∀ r ∈ rs, ¬r.Covers (start + old.length) i) ∨
        insOf rss'.flatten i = some (.committed ts) ∧
          ∃ r ∈ rs, r.Covers (start + old.length) i := by
  induction rs generalizing mems rss ng with
  | nil => exact ⟨mems, rss, ng, rfl, h, rfl, fun i => .inl ⟨rfl, by simp⟩⟩
  | cons r rs ih =>
    obtain ⟨hbase, hle, hown⟩ := hrs r (by simp)
    obtain ⟨q, hq⟩ : ∃ q, r.startRow = start + old.length + q :=
      ⟨r.startRow - (start + old.length), by omega⟩
    -- the first record restamps its own range
    obtain ⟨mems1, rss1, ng1, hrun1, h1, hflat1⟩ := commitInsert_range hcap hid hts hts0 h hok
      (q := q) (n := r.numRows) (by omega) (fun i hqi hi => hown i ⟨by omega, by omega⟩)
    have hins1 : ∀ i, insOf rss1.flatten i
        = if q ≤ i ∧ i < q + r.numRows then some (.committed ts) else insOf rss.flatten i := by
      intro i
      rw [hflat1, insOf_restamp _ (by omega)]
      rfl
    have hlen1 : rss1.flatten.length = rss.flatten.length := by rw [hflat1, length_restamp]
    have hok1 : StampsOk rss1.flatten := by
      intro row hrow
      obtain ⟨i, hi, rfl⟩ := mem_iff_getElem.mp hrow
      have hi' := hins1 i
      rw [insOf, getElem?_eq_getElem hi, map_some] at hi'
      rw [hi']
      split_ifs
      · exact hts
      · exact hok.insOf i
    have hrs1 : ∀ r' ∈ rs, start + old.length ≤ r'.startRow ∧
        r'.startRow + r'.numRows ≤ start + old.length + rss1.flatten.length ∧
        ∀ i, r'.Covers (start + old.length) i → insOf rss1.flatten i = some (.active id) ∨
          insOf rss1.flatten i = some (.committed ts) := by
      intro r' hr'
      obtain ⟨hbase', hle', hown'⟩ := hrs r' (by simp [hr'])
      refine ⟨hbase', by rw [hlen1]; exact hle', fun i hi => ?_⟩
      rw [hins1 i]
      split_ifs
      · exact .inr rfl
      · exact hown' i hi
    obtain ⟨mems', rss', ng', hrun', h', hsnd', hins'⟩ := ih h1 hok1 hrs1
    refine ⟨mems', rss', ng', Fold.foldlM_cons_some.mpr ⟨ng1, ?_, hrun'⟩, h', ?_, fun i => ?_⟩
    · rw [commitRecord, hq]
      exact hrun1
    · rw [hsnd', hflat1, map_snd_restamp]
    · have hcov : r.Covers (start + old.length) i ↔ q ≤ i ∧ i < q + r.numRows := by
        unfold InsertRecord.Covers
        omega
      have hi1 := hins1 i
      -- a row is restamped by the first record or by a later one
      rcases hins' i with ⟨heq, hno⟩ | ⟨heq, r', hr', hr'i⟩
      · split_ifs at hi1 with hc
        · exact .inr ⟨heq.trans hi1, r, by simp, hcov.mpr hc⟩
        · refine .inl ⟨heq.trans hi1, fun r' hr' => ?_⟩
          rcases mem_cons.mp hr' with rfl | hr'
          · exact fun hr => hc (hcov.mp hr)
          · exact hno r' hr'
      · exact .inr ⟨heq, r', by simp [hr'], hr'i⟩

/-- The records cover the rows from `f` to `e`, one after the other. -/
def Tiles : ℕ → List InsertRecord → ℕ → Prop
  | f, [], e => f = e
  | f, r :: rs, e => r.startRow = f ∧ Tiles (f + r.numRows) rs e

variable {e f : ℕ} {rs : List InsertRecord}

lemma Tiles.le (h : Tiles f rs e) : f ≤ e := by
  induction rs generalizing f with
  | nil => exact le_of_eq h
  | cons r rs ih =>
    have := ih h.2
    omega

lemma Tiles.snoc {r : InsertRecord}
    (h : Tiles f (rs ++ [r]) e) : Tiles f rs r.startRow ∧ r.startRow + r.numRows = e := by
  induction rs generalizing f with
  | nil => exact ⟨h.1.symm, h.1 ▸ h.2⟩
  | cons r' rs ih =>
    obtain ⟨hrs, he⟩ := ih h.2
    exact ⟨⟨h.1, hrs⟩, he⟩

/-- Tiles cover what is between their ends. -/
lemma Tiles.exists_covers (h : Tiles f rs e) {i : ℕ}
    (hf : f ≤ i) (he : i < e) : ∃ r ∈ rs, r.startRow ≤ i ∧ i < r.startRow + r.numRows := by
  induction rs generalizing f with
  | nil =>
    have : f = e := h
    omega
  | cons r rs ih =>
    obtain ⟨hr, hrs⟩ := h
    by_cases hi : i < f + r.numRows
    · exact ⟨r, by simp, by omega, by omega⟩
    · obtain ⟨r', hr', hcov⟩ := ih hrs (by omega)
      exact ⟨r', by simp [hr'], hcov⟩

section

variable (hsorted : rs.Pairwise fun r r' => r.startRow + r.numRows ≤ r'.startRow)

include hsorted

lemma add_sum_le
    (hend : ∀ r ∈ rs, r.startRow + r.numRows ≤ e) (hf : f ≤ e) (hle : ∀ r ∈ rs, f ≤ r.startRow) :
    f + (rs.map (·.numRows)).sum ≤ e := by
  induction rs generalizing f with
  | nil => simpa using hf
  | cons r rs ih =>
    rw [pairwise_cons] at hsorted
    have := hle r (by simp)
    have := hend r (by simp)
    have := ih hsorted.2 (fun r' hr' => hend r' (by simp [hr'])) this hsorted.1
    rw [map_cons, sum_cons]
    omega

/-- Ordered records that have as many rows as there is room for leave no gap. -/
lemma tiles_of_sum (hend : ∀ r ∈ rs, r.startRow + r.numRows ≤ e) (hle : ∀ r ∈ rs, f ≤ r.startRow)
    (hsum : f + (rs.map (·.numRows)).sum = e) : Tiles f rs e := by
  induction rs generalizing f with
  | nil => exact hsum
  | cons r rs ih =>
    rw [pairwise_cons] at hsorted
    rw [map_cons, sum_cons] at hsum
    have hrle := hle r (by simp)
    have hend' : ∀ r' ∈ rs, r'.startRow + r'.numRows ≤ e := fun r' hr' => hend r' (by simp [hr'])
    have hroom := add_sum_le hsorted.2 hend' (hend r (by simp)) hsorted.1
    have hr : r.startRow = f := by omega
    exact ⟨hr, ih hsorted.2 hend' (fun r' hr' => hr ▸ hsorted.1 r' hr') (by omega)⟩

end

/-- A loop over the insert records of one transaction, from the last to the first, removes the rows
at the end that they cover. -/
lemma rollbackRecords_spec (hcap : 0 < cap) (hid : StampOk (some (.active id)))
    (rs : List InsertRecord)
    (h : NodeRep (LaggedRep (rollingBack (· = .active id)) chunkCap) chunkCap start old pre
      mems rss ng) (hok : StampsOk rows) (hflat : rss.flatten = rows ++ stamped (.active id) new)
    (hrs : Tiles (start + old.length + rows.length) rs
      (start + old.length + rows.length + new.length)) :
    ∃ mems' rss' ng', rs.reverse.foldlM (rollbackRecord chunkCap) ng = some ng' ∧
      NodeRep (LaggedRep (rollingBack (· = .active id)) chunkCap) chunkCap start old pre
        mems' rss' ng' ∧ rss'.flatten = rows := by
  induction rs using List.reverseRecOn generalizing mems rss ng new with
  | nil =>
    have hlen : new.length = 0 := by
      have : start + old.length + rows.length = _ := hrs
      omega
    obtain rfl := eq_nil_of_length_eq_zero hlen
    exact ⟨mems, rss, ng, rfl, h, hflat.trans (append_nil rows)⟩
  | append_singleton rs r ih =>
    obtain ⟨htiles, hend⟩ := hrs.snoc
    obtain ⟨k, hk⟩ : ∃ k, r.startRow = start + old.length + rows.length + k :=
      ⟨r.startRow - (start + old.length + rows.length), by have := htiles.le; omega⟩
    have hkle : k ≤ new.length := by omega
    have htake : (new.take k).length = k := by rw [length_take, Nat.min_eq_left hkle]
    have hdrop : (new.drop k).length = r.numRows := by rw [length_drop]; omega
    have hflat' : rss.flatten = (rows ++ stamped (.active id) (new.take k))
        ++ stamped (.active id) (new.drop k) := by
      rw [hflat, append_assoc, ← stamped_append, take_append_drop]
    -- the last record covers the last rows
    obtain ⟨ng1, mems1, rss1, happly, h1, hflat1⟩ := rollbackInsert_suffix hcap hid h
      (hok.append_stamped hid _) hflat'
    have hstart : start + old.length + (rows ++ stamped (.active id) (new.take k)).length
        = r.startRow := by
      rw [length_append, length_stamped, htake]
      omega
    rw [hstart, hdrop] at happly
    rw [hstart] at h1
    obtain ⟨mems', rss', ng', hrun', h', hflat''⟩ := ih h1 hflat1 (by
      rw [htake, ← hk]
      exact htiles)
    refine ⟨mems', rss', ng', ?_, h', hflat''⟩
    rw [reverse_append, reverse_singleton, singleton_append]
    refine Fold.foldlM_cons_some.mpr ⟨_, ?_, hrun'⟩
    exact Option.bind_eq_some_iff.mpr ⟨ng1, happly, rfl⟩

end Records

end SharedNodeGroup

end Ladybug
