import Ladybug.Storage.Equiv.MaskedScan
import Ladybug.Storage.Equiv.SharedNodeGroup

/-!
# What a transaction sees while it rolls back

A transaction undoes its insertion records one after the other, the last one first. In a vector
whose rows are all its own the first record takes the version of the whole vector away, so that the
rows of the earlier records are not seen any more although they are still there.

* `Rep.settle`: the version info is exact when the rows of such vectors count as not inserted;
* `exists_view`: a node group as the transaction reads it. Of a vector with rows of the transaction
  it sees a row, or nothing of the vector is inserted any more.
-/

namespace Ladybug

open Mvcc VersionInfo List
open Lag (rollingBack)

variable {cap m id start : ℕ} {K : Type}

/-! ### One group -/

/-- While `id` rolls back, its rows in vectors without insertions count as not inserted. -/
lemma VersionInfo.Rep.settle {n : ℕ} {ins : ℕ → Option Stamp} {vi : VersionInfo cap}
    (h : Rep (rollingBack (· = .active id)) false n ins (fun _ => none) vi) :
    Rep Lag.none false n (fun i => if vi.noInserted i then none else ins i) (fun _ => none) vi := by
  intro v
  have hv := h v
  cases hvv : vi.getVectorVersionInfo v with
  | none =>
    rw [hvv] at hv
    exact ⟨fun _ _ => rfl, fun i hi hlt => absurd (hv.2 i hi hlt).1 (by decide)⟩
  | some vv =>
    rw [hvv] at hv
    have hno : ∀ i < cap, vi.noInserted (v * cap + i) = decide (vv.insertionStatus = .noInserted) :=
      fun i hi => by rw [noInserted, Paging.mul_add_div_of_lt hi, hvv, Option.any_some]
    refine ⟨?_, hv.2.same, hv.2.entries, hv.2.alloc, fun _ _ _ => .inl rfl⟩
    cases hv.1 with
    -- an emptied vector holds no row
    | empty hck hstatus hsame harr hrows =>
      exact .empty hck hstatus hsame harr fun i hi => .inl (by simp [hno i hi, hstatus])
    | always hck => cases hck
    | same hck hstatus hsame harr hrows =>
      -- the rows of a vector of one version are still there
      refine .same hck hstatus hsame harr fun i hi hlt => .inl ?_
      dsimp only
      rw [hno i hi, hstatus]
      rcases hrows i hi hlt with hrow | ⟨⟨o, rfl, hver⟩, o', rfl, hrow⟩
      · exact hrow
      · exact ⟨hrow ▸ Option.some_ne_none _, hrow ▸ hver.symm⟩
    | array a hck hstatus hsame harr hrows =>
      refine .array a hck hstatus hsame harr fun i hi => ?_
      dsimp only
      rw [hno i hi, hstatus]
      exact hrows i hi

/-- A group that shows its rows, as far as the rollback of `id` has come. -/
structure ReadRep (id start : ℕ) (rows : List (StampedRow m K)) (g : ChunkedNodeGroup cap m K) :
    Prop where
  start_eq : g.startRowIdx = start
  numRows_eq : g.numRows = rows.length
  chunks_take : ∀ c, (g.chunks c).take rows.length = rows.map (·.2 c)
  versions : match g.versionInfo with
    | none => ∀ row ∈ rows, row.1 = .committed 0
    | some vi =>
      Rep (rollingBack (· = .active id)) false rows.length (insOf rows) (fun _ => none) vi

variable {rows : List (StampedRow m K)} {g : ChunkedNodeGroup cap m K}

lemma GroupRep.readRep (h : GroupRep start rows g) : ReadRep id start rows g := by
  refine ⟨h.start_eq, h.numRows_eq, h.chunks_take, ?_⟩
  have hversions := h.versions
  cases hvi : g.versionInfo with
  | none =>
    rw [hvi] at hversions
    exact hversions
  | some vi => exact (ChunkedNodeGroup.versionsRep_some h hvi).startLag _

lemma LaggedRep.readRep {chunkCap : ℕ}
    (h : LaggedRep (rollingBack (· = .active id)) chunkCap start rows g) :
    ReadRep id start rows g := by
  refine ⟨h.start_eq, h.numRows_eq, h.chunks_take, ?_⟩
  cases hvi : g.versionInfo with
  | none => exact h.fresh hvi ▸ nofun
  | some vi => exact h.versions vi hvi

/-- The rows of the group as `T` reads them. -/
def viewRows (pk : Fin m) (T : Transaction) (rows : List (StampedRow m K))
    (g : ChunkedNodeGroup cap m K) : List (RowView K) :=
  rows.mapIdx fun i row => (row.2 pk,
    if g.versionInfo.any (·.noInserted i) then none else some (row.1.visibleTo T.id T.startTS))

@[simp] lemma length_viewRows (pk : Fin m) (T : Transaction) (rows : List (StampedRow m K))
    (g : ChunkedNodeGroup cap m K) : (viewRows pk T rows g).length = rows.length := by
  simp [viewRows]

/-- What a transaction sees of a group. -/
lemma ReadRep.view (h : ReadRep id start rows g) (hok : StampsOk rows) (pk : Fin m)
    (T : Transaction) : GroupView pk T start (viewRows pk T rows g) g where
  start_eq := h.start_eq
  numRows_eq := by rw [h.numRows_eq, length_viewRows]
  keys := by
    intro i hi
    rw [length_viewRows] at hi
    have htake := congrArg (fun values => values[i]?) (h.chunks_take pk)
    rw [getElem?_take_of_lt hi, getElem?_map] at htake
    rw [htake, viewRows, getElem?_mapIdx, Option.map_map]
    rfl
  versions := by
    have hversions := h.versions
    cases hvi : g.versionInfo with
    | none =>
      -- without versions all rows are committed
      rw [hvi] at hversions
      intro row hrow
      obtain ⟨i, hi, rfl⟩ := mem_mapIdx.mp hrow
      simp [hvi, hversions _ (getElem_mem hi), Stamp.visibleTo]
    | some vi =>
      rw [hvi] at hversions
      refine ⟨false, _, fun _ => none, by rw [length_viewRows]; exact Rep.settle hversions,
        fun i => ?_, fun _ => stampOk_none, fun i row hrow => ?_⟩
      · split_ifs
        · exact stampOk_none
        · exact hok.insOf i
      · rw [viewRows, getElem?_mapIdx] at hrow
        obtain ⟨r, hr, rfl⟩ := Option.map_eq_some_iff.mp hrow
        obtain ⟨hi, rfl⟩ := List.getElem?_eq_some_iff.mp hr
        rw [hvi, Option.any_some]
        split_ifs with hno
        · rfl
        · have hsel := rowSelected_insOf T hi
          simpa [rowSelected, hno] using hsel.symm

/-- Between the actions of the transactions every row is inserted. -/
lemma GroupRep.viewRows_eq (hcap : 0 < cap) (h : GroupRep start rows g) (pk : Fin m)
    (T : Transaction) : viewRows pk T rows g =
      rows.map fun row => (row.2 pk, some (row.1.visibleTo T.id T.startTS)) := by
  refine ext_getElem (by simp) fun i hi _ => ?_
  rw [length_viewRows] at hi
  have hins : g.versionInfo.any (·.noInserted i) = false := by
    cases hvi : g.versionInfo with
    | none => rfl
    | some vi =>
      rw [Option.any_some, ← Bool.not_eq_true]
      intro hno
      have hnone := eq_none_of_noInserted hcap (ChunkedNodeGroup.versionsRep_some h hvi) hno
      simp [insOf, hi] at hnone
  simp [viewRows, hins]

/-! ### The vectors of a group -/

variable {α : Type} {v : ℕ × List α} {i : ℕ}

/-- A vector starts at a multiple of the vector capacity. -/
lemma exists_of_mem_vectors {l : List α} (h : v ∈ vectors cap start l) :
    ∃ k, v.1 = start + k * cap ∧ v.2 = (l.drop (k * cap)).take cap := by
  fun_induction vectors cap start l with
  | case1 => cases h
  | case2 start l hne ih =>
    rcases mem_cons.mp h with rfl | h
    · exact ⟨0, by simp, by simp⟩
    · obtain ⟨k, hstart, hv⟩ := ih h
      refine ⟨k + 1, ?_, ?_⟩
      · have hdrop : l.drop cap ≠ [] := by
          intro hnil
          rw [hnil, vectors_nil] at h
          cases h
        rw [Ne, drop_eq_nil_iff] at hdrop
        rw [hstart, Nat.min_eq_right (by omega), Nat.succ_mul]
        omega
      · rw [hv, drop_drop, Nat.succ_mul, Nat.add_comm]

/-- A row of a vector of consecutive groups is a row of the groups. -/
lemma getElem?_of_mem_groupVectors {ls : List (List α)} (h : v ∈ groupVectors cap start ls)
    (hi : i < v.2.length) : ∃ x, ls.flatten[x]? = v.2[i]? ∧ v.1 + i = start + x := by
  induction ls generalizing start with
  | nil => cases h
  | cons l ls ih =>
    rcases mem_append.mp h with h | h
    · obtain ⟨k, hstart, hv⟩ := exists_of_mem_vectors h
      have hlen := hi
      rw [hv, length_take, length_drop] at hlen
      refine ⟨k * cap + i, ?_, by omega⟩
      rw [hv, getElem?_take_of_lt (by omega), getElem?_drop, flatten_cons,
        getElem?_append_left (by omega)]
    · obtain ⟨x, hx, hstart⟩ := ih h
      refine ⟨l.length + x, ?_, by omega⟩
      rw [flatten_cons, getElem?_append_right (by omega), Nat.add_sub_cancel_left, hx]

/-- The rows of a vector have all lost their insertions, or none of them has. -/
lemma viewRows_vector {pk : Fin m} {T : Transaction} {v : ℕ × List (RowView K)} {base : ℕ}
    (h : v ∈ vectors cap base (viewRows pk T rows g)) :
    (∀ row ∈ v.2, row.2 = none) ∨ ∀ row ∈ v.2, row.2 ≠ none := by
  obtain ⟨k, -, hv⟩ := exists_of_mem_vectors h
  set no : Bool := g.versionInfo.any fun vi =>
    (vi.getVectorVersionInfo k).any (·.insertionStatus = .noInserted) with hno
  have hrows : ∀ row ∈ v.2, ∃ b : Bool, row.2 = if no then none else some b := by
    intro row hrow
    obtain ⟨i, hi⟩ := mem_iff_getElem?.mp hrow
    have hlt : i < v.2.length := (List.getElem?_eq_some_iff.mp hi).1
    rw [hv, length_take] at hlt
    rw [hv, getElem?_take_of_lt (by omega), getElem?_drop, viewRows, getElem?_mapIdx] at hi
    obtain ⟨r, -, rfl⟩ := Option.map_eq_some_iff.mp hi
    have hdiv : (k * cap + i) / cap = k := Paging.mul_add_div_of_lt (by omega) k
    refine ⟨r.1.visibleTo T.id T.startTS, ?_⟩
    simp only [noInserted, hdiv, hno]
  cases hb : no with
  | true =>
    refine .inl fun row hrow => ?_
    obtain ⟨b, hrow'⟩ := hrows row hrow
    simpa [hb] using hrow'
  | false =>
    refine .inr fun row hrow => ?_
    obtain ⟨b, hrow'⟩ := hrows row hrow
    simp [hrow', hb]

/-- The groups as `T` reads them. From row `s` on all rows are its own: of a vector with such rows
it sees a row, or nothing is inserted in the vector any more. -/
theorem exists_view (hcap : 0 < cap) {T : Transaction} {gs : List (ChunkedNodeGroup cap m K)}
    {rss : List (List (StampedRow m K))} (h : GroupsRep (ReadRep T.id) start gs rss) (pk : Fin m)
    (hok : StampsOk rss.flatten) {s : ℕ}
    (hown : ∀ x row, rss.flatten[x]? = some row → s ≤ x → row.1 = .active T.id) :
    ∃ view, GroupsView pk T start gs view ∧ (view.map List.length).sum = rss.flatten.length ∧
      ∀ base, ∀ v ∈ groupVectors cap base view, ∀ i < v.2.length, base + s ≤ v.1 + i →
        (∃ row ∈ v.2, row.seen = true) ∨ ∀ row ∈ v.2, row.2 = none := by
  induction h generalizing s with
  | nil => exact ⟨[], trivial, rfl, nofun⟩
  | @cons start g rows gs rss head tail ih =>
    rw [flatten_cons] at hok hown
    obtain ⟨view, hview, hlen, hseen⟩ := ih (fun row hrow => hok row (mem_append_right _ hrow))
      (s := s - rows.length) fun x row hrow hx =>
        hown (rows.length + x) row (by rwa [getElem?_append_right (by omega),
          Nat.add_sub_cancel_left]) (by omega)
    refine ⟨viewRows pk T rows g :: view, ⟨head.view (fun row hrow =>
      hok row (mem_append_left _ hrow)) pk T, by rwa [length_viewRows]⟩, ?_, ?_⟩
    · rw [map_cons, sum_cons, length_viewRows, hlen, flatten_cons, length_append]
    · intro base v hv i hi hs
      rcases mem_append.mp hv with hv | hv
      · -- a vector of the first group
        refine (viewRows_vector hv).symm.imp_left fun hne => ?_
        obtain ⟨k, hstart, hvk⟩ := exists_of_mem_vectors hv
        have hi' := hi
        rw [hvk, length_take, length_drop, length_viewRows] at hi'
        have hrow : v.2[i]? = some v.2[i] := getElem?_eq_getElem hi
        refine ⟨v.2[i], getElem_mem hi, ?_⟩
        have hne' := hne _ (getElem_mem hi)
        generalize v.2[i] = row at hrow hne' ⊢
        rw [hvk, getElem?_take_of_lt (by omega), getElem?_drop, viewRows, getElem?_mapIdx] at hrow
        obtain ⟨r, hr, rfl⟩ := Option.map_eq_some_iff.mp hrow
        have hact := hown (k * cap + i) r (by rwa [getElem?_append_left (by omega)]) (by omega)
        dsimp only at hne'
        split_ifs at hne' with hno
        · exact absurd rfl hne'
        · simp [RowView.seen, hno, hact, Stamp.visibleTo]
      -- a vector of a later group
      · rw [length_viewRows] at hv
        obtain ⟨x, -, hx⟩ := getElem?_of_mem_groupVectors hv hi
        exact hseen _ v hv i hi (by omega)

/-! ### The rows of a table -/

/-- The offset of the first row of the record. -/
def InsertInfo.startOffset (nodeGroupSize : ℕ) (record : InsertInfo) : ℕ :=
  record.startRow + record.nodeGroupIdx * nodeGroupSize

namespace NodeTable

variable {nodeGroupSize chunkCap : ℕ} {T : Transaction} {pk : Fin m}
  {groups : List (NodeGroup cap m K)} {contents : ℕ → ℕ × List (StampedRow m K)}
  {content : ℕ × List (StampedRow m K)} {ng : NodeGroup cap m K}

/-- The node group holds the rows `content.2` in memory, from its row `content.1` on, as far as the
rollback of `T` has come. -/
def HoldsRows (nodeGroupSize chunkCap : ℕ) (T : Transaction) (content : ℕ × List (StampedRow m K))
    (ng : NodeGroup cap m K) : Prop :=
  ∃ start old pre mems rss,
    NodeRep (LaggedRep (rollingBack (· = .active T.id)) chunkCap) chunkCap start old pre mems rss
      ng ∧
    content = (start + old.length, rss.flatten) ∧ StampsOk (old ++ rss.flatten) ∧
    ng.numRows ≤ nodeGroupSize

/-- The node groups hold these rows. One without rows may be missing. -/
def HoldsTable (nodeGroupSize chunkCap : ℕ) (T : Transaction)
    (contents : ℕ → ℕ × List (StampedRow m K)) (groups : List (NodeGroup cap m K)) : Prop :=
  ∀ j, match groups[j]? with
    | some ng => HoldsRows nodeGroupSize chunkCap T (contents j) ng
    | none => (contents j).2 = []

/-- Each record, in the order in which they are undone, covers the last rows of its node group, and
these are rows of `T`. -/
def Undoable (T : Transaction) : (ℕ → ℕ × List (StampedRow m K)) → List InsertInfo → Prop
  | _, [] => True
  | contents, record :: records => ∃ base rest new,
    contents record.nodeGroupIdx = (base, rest ++ stamped (.active T.id) new) ∧
    record.startRow = base + rest.length ∧ record.numRows = new.length ∧
    Undoable T (Function.update contents record.nodeGroupIdx (base, rest)) records

/-- There is room for the rows. -/
lemma HoldsRows.length_le (h : HoldsRows nodeGroupSize chunkCap T content ng) :
    content.1 + content.2.length ≤ nodeGroupSize := by
  obtain ⟨start, old, pre, mems, rss, hrep, rfl, -, hle⟩ := h
  exact hrep.numRows ▸ hle

/-- A node group as `T` reads it, which from row `s` on has only rows of `T`. -/
def ViewFrom (nodeGroupSize : ℕ) (pk : Fin m) (T : Transaction) (s : ℕ)
    (view : ℕ × List (List (RowView K))) (ng : NodeGroup cap m K) : Prop :=
  NodeGroupView nodeGroupSize pk T view ng ∧
    ∀ base, ∀ v ∈ groupVectors cap (base + view.1) view.2, ∀ i < v.2.length, base + s ≤ v.1 + i →
      (∃ row ∈ v.2, row.seen = true) ∨ ∀ row ∈ v.2, row.2 = none

/-- What a transaction sees of a node group. -/
lemma HoldsRows.view (hcap : 0 < cap) (h : HoldsRows nodeGroupSize chunkCap T content ng)
    (pk : Fin m) {s : ℕ} (hs : content.1 ≤ s)
    (hown : ∀ x row, content.2[x]? = some row → s ≤ content.1 + x → row.1 = .active T.id) :
    ∃ view, ViewFrom nodeGroupSize pk T s view ng := by
  obtain ⟨start, old, pre, mems, rss, hrep, rfl, hok, hle⟩ := h
  have hmems : GroupsRep (ReadRep T.id) (start + old.length) mems rss :=
    hrep.mems.reps.mono fun _ _ _ hm => hm.readRep
  obtain ⟨rss', hreps, hflat⟩ : ∃ rss', GroupsRep (ReadRep T.id) start ng.chunkedGroups rss' ∧
      rss'.flatten = old ++ rss.flatten := by
    rw [hrep.groups]
    cases hrep.persistent with
    | none => exact ⟨rss, hmems, rfl⟩
    | some rep => exact ⟨old :: rss, .cons rep.readRep hmems, rfl⟩
  obtain ⟨view, hview, hlen, hseen⟩ := exists_view hcap hreps pk (hflat ▸ hok) (s := s - start)
    fun x row hrow hx => by
      have hx' : old.length ≤ x := by
        dsimp only at hs
        omega
      rw [hflat, getElem?_append_right hx'] at hrow
      exact hown _ row hrow (by dsimp only; omega)
  refine ⟨(start, view), ⟨hview, ?_⟩, fun base v hv i hi hbase => hseen _ v hv i hi ?_⟩
  · have hnum := hrep.numRows
    rw [hlen, hflat, length_append]
    omega
  · dsimp only at hs ⊢
    omega

/-- The views of all node groups, and where their vectors come from. -/
lemma exists_views (groups : List (NodeGroup cap m K)) (k : ℕ)
    {P : ℕ → ℕ × List (List (RowView K)) → NodeGroup cap m K → Prop}
    (hP : ∀ j view ng, P j view ng → NodeGroupView nodeGroupSize pk T view ng)
    (h : ∀ j ng, groups[j]? = some ng → ∃ view, P (k + j) view ng) :
    ∃ views, Forall₂ (NodeGroupView nodeGroupSize pk T) views groups ∧
      ∀ v ∈ tableVectors cap nodeGroupSize k views, ∃ j view ng, P j view ng ∧
        v ∈ groupVectors cap (j * nodeGroupSize + view.1) view.2 := by
  induction groups generalizing k with
  | nil => exact ⟨[], .nil, nofun⟩
  | cons ng groups ih =>
    obtain ⟨view, hview⟩ := h 0 ng rfl
    obtain ⟨views, hviews, hvectors⟩ := ih (k + 1) fun j ng hng => by
      rw [Nat.add_assoc, Nat.add_comm 1]
      exact h (j + 1) ng hng
    refine ⟨view :: views, .cons (hP _ _ _ hview) hviews, fun v hv => ?_⟩
    rcases mem_append.mp hv with hv | hv
    · exact ⟨k, view, ng, hview, hv⟩
    · exact hvectors v hv

/-- **What the rollback of a record finds.** The transaction sees the rows of its last record, as
far as there are insertions in their vectors. -/
theorem HoldsTable.views (hcap : 0 < cap)
    (h : HoldsTable nodeGroupSize chunkCap T contents groups) (pk : Fin m) (record : InsertInfo)
    {base : ℕ} {rest : List (StampedRow m K)} {new : List (Fin m → K)}
    (hcontent : contents record.nodeGroupIdx = (base, rest ++ stamped (.active T.id) new))
    (hstart : record.startRow = base + rest.length) (hnum : record.numRows = new.length) :
    ∃ views, Forall₂ (NodeGroupView nodeGroupSize pk T) views groups ∧
      SeesRecord (record.startOffset nodeGroupSize)
        (record.startOffset nodeGroupSize + record.numRows)
        (tableVectors cap nodeGroupSize 0 views) := by
  set s : ℕ → ℕ := fun j => if j = record.nodeGroupIdx then record.startRow else nodeGroupSize
    with hs
  have hview : ∀ j ng, groups[j]? = some ng →
      ∃ view, ViewFrom nodeGroupSize pk T (s (0 + j)) view ng := by
    intro j ng hng
    have hrows := h j
    rw [hng] at hrows
    have hle := hrows.length_le
    rw [Nat.zero_add]
    by_cases hj : j = record.nodeGroupIdx
    · rw [hj, hcontent] at hrows
      simp only [hs, if_pos hj, hstart]
      refine hrows.view hcap pk (Nat.le_add_right _ _) fun x row hrow hx => ?_
      rw [getElem?_append_right (by dsimp only at hx; omega)] at hrow
      obtain ⟨values, -, rfl⟩ := mem_map.mp (mem_of_getElem? hrow)
      rfl
    · simp only [hs, if_neg hj]
      refine hrows.view hcap pk (by omega) fun x row hrow hx => ?_
      have := (List.getElem?_eq_some_iff.mp hrow).1
      omega
  obtain ⟨views, hviews, hvectors⟩ := exists_views groups 0
    (P := fun j view ng => ViewFrom nodeGroupSize pk T (s j) view ng) (fun _ _ _ hP => hP.1) hview
  refine ⟨views, hviews, fun v hv htouched => ?_⟩
  obtain ⟨j, view, ng, ⟨hng, hseen⟩, hv⟩ := hvectors v hv
  -- a row of the record lies in the vector, and therefore in the node group of the record
  have hi : max (record.startOffset nodeGroupSize) v.1 - v.1 < v.2.length := by omega
  obtain ⟨x, hx, hrow⟩ := getElem?_of_mem_groupVectors hv hi
  have hxlt : x < (view.2.map List.length).sum := by
    rw [getElem?_eq_getElem hi] at hx
    rw [← length_flatten]
    exact (List.getElem?_eq_some_iff.mp hx).1
  have hroom := hng.2
  have hend : record.startRow + record.numRows ≤ nodeGroupSize := by
    have hrows := h record.nodeGroupIdx
    rw [hcontent] at hrows
    cases hg : groups[record.nodeGroupIdx]? with
    | none =>
      rw [hg] at hrows
      have hnil : new = [] := by simpa [stamped] using (append_eq_nil_iff.mp hrows).2
      rw [hnum, hnil, length_nil] at htouched
      omega
    | some ng' =>
      rw [hg] at hrows
      have hle := hrows.length_le
      rw [length_append, length_stamped] at hle
      omega
  have hj : j = record.nodeGroupIdx := by
    rw [InsertInfo.startOffset] at hi hrow htouched
    rcases Nat.lt_trichotomy j record.nodeGroupIdx with hlt | heq | hgt
    · have hmul := Nat.mul_le_mul_right nodeGroupSize (Nat.succ_le_of_lt hlt)
      rw [Nat.succ_mul] at hmul
      omega
    · exact heq
    · have hmul := Nat.mul_le_mul_right nodeGroupSize (Nat.succ_le_of_lt hgt)
      rw [Nat.succ_mul] at hmul
      omega
  subst hj
  refine hseen _ v hv _ hi ?_
  simp only [hs, if_pos]
  rw [InsertInfo.startOffset]
  omega

/-- Node groups without rows may be removed at the end. -/
lemma HoldsTable.dropEmpty (h : HoldsTable nodeGroupSize chunkCap T contents groups) :
    HoldsTable nodeGroupSize chunkCap T contents (groups.rdropWhile (·.numRows = 0)) := by
  have hsplit : groups.rdropWhile (·.numRows = 0) ++ groups.rtakeWhile (·.numRows = 0) = groups :=
    rdropWhile_append_rtakeWhile
  intro j
  have hj := h j
  rw [← hsplit] at hj
  by_cases hlt : j < (groups.rdropWhile (·.numRows = 0)).length
  · rwa [getElem?_append_left hlt] at hj
  · rw [getElem?_eq_none (by omega)]
    rw [getElem?_append_right (by omega)] at hj
    cases hg : (groups.rtakeWhile (·.numRows = 0))[j - (groups.rdropWhile (·.numRows = 0)).length]?
      with
    | none => rwa [hg] at hj
    | some ng =>
      rw [hg] at hj
      obtain ⟨start, old, pre, mems, rss, hrep, heq, -⟩ := hj
      have hzero : ng.numRows = 0 := by simpa using mem_rtakeWhile_imp (mem_of_getElem? hg)
      have hnum := hrep.numRows
      rw [heq]
      exact eq_nil_of_length_eq_zero (show rss.flatten.length = 0 by omega)

/-- The rollback of a record takes its rows away. -/
lemma HoldsTable.rollbackRows (hcap : 0 < cap) (hid : StampOk (some (.active T.id)))
    (h : HoldsTable nodeGroupSize chunkCap T contents groups) (record : InsertInfo) {base : ℕ}
    {rest : List (StampedRow m K)} {new : List (Fin m → K)}
    (hcontent : contents record.nodeGroupIdx = (base, rest ++ stamped (.active T.id) new))
    (hstart : record.startRow = base + rest.length) (hnum : record.numRows = new.length) :
    ∃ groups', rollbackRows chunkCap groups record = some groups' ∧
      HoldsTable nodeGroupSize chunkCap T
        (Function.update contents record.nodeGroupIdx (base, rest)) groups' ∧
      groups'.length ≤ groups.length := by
  have hrows := h record.nodeGroupIdx
  rw [NodeTable.rollbackRows]
  cases hg : groups[record.nodeGroupIdx]? with
  | none =>
    -- a node group that was dropped holds no row
    rw [hg, hcontent] at hrows
    refine ⟨groups, rfl, fun j => ?_, le_rfl⟩
    by_cases hj : j = record.nodeGroupIdx
    · rw [hj, hg, Function.update_self]
      exact (append_eq_nil_iff.mp hrows).1
    · rw [Function.update_of_ne hj]
      exact h j
  | some ng =>
    rw [hg, hcontent] at hrows
    obtain ⟨start, old, pre, mems, rss, hrep, heq, hok, hle⟩ := hrows
    obtain ⟨rfl, hflat⟩ := Prod.mk.inj heq
    obtain ⟨ng₁, mems', rss', hrun, hrep', hflat'⟩ := NodeGroup.rollbackInsert_suffix hcap hid hrep
      (fun row hrow => hok row (by rw [← hflat]; simp [hrow])) hflat.symm
    rw [← hstart, ← hnum] at hrun
    rw [← hstart] at hrep'
    set ng' := ng₁.rollbackInsert record.startRow with hng'
    have hnew : HoldsRows nodeGroupSize chunkCap T (start + old.length, rest) ng' := by
      refine ⟨start, old, pre, mems', rss', hrep', by rw [hflat'], ?_, ?_⟩
      · rw [hflat']
        exact fun row hrow => hok row (by rw [← hflat]; simp only [mem_append] at hrow ⊢; tauto)
      · have hnum₀ := hrep.numRows
        rw [hrep'.numRows, hflat']
        rw [← hflat, length_append] at hnum₀
        omega
    -- the other node groups stay
    set groups₁ := groups.set record.nodeGroupIdx ng' with hgroups₁
    have hall : HoldsTable nodeGroupSize chunkCap T
        (Function.update contents record.nodeGroupIdx (start + old.length, rest)) groups₁ := by
      intro j
      by_cases hj : j = record.nodeGroupIdx
      · rw [hj, hgroups₁, getElem?_set_self (List.getElem?_eq_some_iff.mp hg).1,
          Function.update_self]
        exact hnew
      · rw [hgroups₁, getElem?_set_ne (Ne.symm hj), Function.update_of_ne hj]
        exact h j
    refine ⟨groups₁.rdropWhile (·.numRows = 0), ?_, hall.dropEmpty, ?_⟩
    · exact Option.bind_eq_some_iff.mpr ⟨ng₁, hrun, rfl⟩
    · have hinit : groups₁.rdropWhile (·.numRows = 0) <+: groups₁ := rdropWhile_prefix ..
      exact hinit.length_le.trans (by rw [hgroups₁, length_set])

end NodeTable

end Ladybug
