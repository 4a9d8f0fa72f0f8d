import Ladybug.Storage.Equiv.SharedNodeGroup

/-!
# Interleavings of several writers

`SharedRep` connects a node group and the undo buffers of its writers with the rows of all
transactions, in the order of the appends. A rollback cuts the node group at the first row of the
transaction, so it keeps `SharedRep` only if the transaction owns all rows from there on
(`OwnsEnd`), and an append shows its own values only if no rollback has left values behind the
rows of a chunked group (`TrimmedChunks`).

* `run_rows`: the rows of a committed transaction stay, with their values and row indexes.
-/

namespace Ladybug

open Mvcc VersionInfo NodeGroup List
open Option (bind_eq_some_iff map_some)
open Stamp (commit)

variable {cap m : ℕ} {V : Type}

/-- Ids and timestamps as the transaction manager gives them. -/
def WriterAction.Valid : WriterAction m V → Prop
  | .append transactionID _ =>
    startTransactionID ≤ transactionID ∧ transactionID < invalidTransaction
  | .commit _ commitTS => commitTS ≠ 0 ∧ commitTS < startTransactionID
  | .rollback _ => True

/-- The chunks in memory hold no value behind the rows of their group. -/
def NodeGroup.TrimmedChunks (ng : NodeGroup cap m V) : Prop :=
  ∀ g ∈ ng.chunkedGroups, g.residencyState = .inMemory → ∀ c, (g.chunks c).length = g.numRows

/-- What an action makes of the rows in memory. -/
def rowsAfter (rows : List (StampedRow m V)) : WriterAction m V → List (StampedRow m V)
  | .append transactionID new => rows ++ stamped (.active transactionID) new
  | .commit transactionID commitTS => commitRows transactionID commitTS rows
  | .rollback transactionID => rollbackRows transactionID rows

namespace SharedNodeGroup

/-- All rows from the first row of the transaction on are its own. -/
def OwnsEnd (s : SharedNodeGroup cap m V) (transactionID : ℕ) : Prop :=
  ∀ first ∈ (s.undoBuffer transactionID).head?,
    s.nodeGroup.numRows = first.startRow + ((s.undoBuffer transactionID).map (·.numRows)).sum ∧
    ∀ r ∈ s.records, r.transactionID ≠ transactionID → r.startRow + r.numRows ≤ first.startRow

/-- The actions that keep the rows of the other transactions. -/
def Allowed (s : SharedNodeGroup cap m V) : WriterAction m V → Prop
  | .append _ rows => rows = [] ∨ s.nodeGroup.TrimmedChunks
  | .commit _ _ => True
  | .rollback transactionID => s.OwnsEnd transactionID

/-- The state `s` holds the rows `old` of a checkpoint and the rows `rows` of the writers. -/
structure SharedRep (chunkCap start : ℕ) (old : List (StampedRow m V))
    (pre : List (ChunkedNodeGroup cap m V)) (rows : List (StampedRow m V))
    (s : SharedNodeGroup cap m V) : Prop where
  node : ∃ mems rss, NodeRep (LaggedRep Lag.none chunkCap) chunkCap start old pre mems rss
    s.nodeGroup ∧ rss.flatten = rows
  ok : StampsOk rows
  recorded : Recorded (start + old.length) rows s.records

section Steps

variable {chunkCap start base id q ts : ℕ} {old rows : List (StampedRow m V)}
  {pre mems gs : List (ChunkedNodeGroup cap m V)} {s : SharedNodeGroup cap m V}
  {new : List (Fin m → V)} {rss : List (List (StampedRow m V))}
  {Q P : ℕ → List (StampedRow m V) → ChunkedNodeGroup cap m V → Prop} {ng : NodeGroup cap m V}
  {a : WriterAction m V} {r : InsertRecord} {x : Stamp}

lemma memsRep_of_trimmed (h : GroupsRep (LaggedRep Lag.none chunkCap) base gs rss)
    (htrim : ∀ g ∈ gs, g.residencyState = .inMemory → ∀ c, (g.chunks c).length = g.numRows) :
    GroupsRep (MemRep chunkCap) base gs rss := by
  induction h with
  | nil => exact .nil _
  | cons head _ ih =>
    refine .cons ⟨head.groupRep, head.inMemory, head.capacity_eq, head.length_le, fun c => ?_,
      head.fresh⟩ (ih fun g hg => htrim g (by simp [hg]))
    exact (htrim _ (by simp) head.inMemory c).trans head.numRows_eq

/-- An append to a node group whose chunks are trimmed, or of no rows. -/
lemma append_groups (hcap : 0 < cap) (hchunk : 0 < chunkCap)
    (h : NodeRep (LaggedRep Lag.none chunkCap) chunkCap start old pre mems rss ng)
    (hid : StampOk (some (.active id))) (hnew : new = [] ∨ ng.TrimmedChunks) :
    ∃ mems' rss' ng', ng.append chunkCap id (fun c => new.map (· c)) 0 new.length = some ng' ∧
      NodeRep (LaggedRep Lag.none chunkCap) chunkCap start old pre mems' rss' ng' ∧
      rss'.flatten = rss.flatten ++ stamped (.active id) new := by
  have hmem : ng.TrimmedChunks → ∃ mems' rss' ng',
      ng.append chunkCap id (fun c => new.map (· c)) 0 new.length = some ng' ∧
      NodeRep (LaggedRep Lag.none chunkCap) chunkCap start old pre mems' rss' ng' ∧
      rss'.flatten = rss.flatten ++ stamped (.active id) new := by
    intro htrim
    have hreps := memsRep_of_trimmed h.mems.reps fun g hg =>
      htrim g (by rw [h.groups]; exact mem_append_right _ hg)
    obtain ⟨mems', rss', ng', hrun, h', hflat, -⟩ := NodeGroup.append_spec hcap hchunk
      ⟨h.groups, h.persistent, h.mems.congr hreps rfl, h.numRows, h.nonempty⟩ hid new
    exact ⟨mems', rss', ng', hrun, h'.mono fun _ _ _ hm => hm.laggedRep, hflat⟩
  rcases hnew with rfl | htrim
  · by_cases hgroups : ng.chunkedGroups = []
    · refine hmem fun g hg => ?_
      rw [hgroups] at hg
      exact absurd hg (not_mem_nil)
    · refine ⟨mems, rss, ng, ?_, h, (append_nil _).symm⟩
      rw [NodeGroup.append, if_neg hgroups]
      rfl
  · exact hmem htrim

lemma GroupsRep.endLag (h : GroupsRep P base gs rss)
    (hPQ : ∀ start rows g, P start rows g → (∀ row ∈ rows, row ∈ rss.flatten) → Q start rows g) :
    GroupsRep Q base gs rss := by
  induction h with
  | nil => exact .nil _
  | cons head _ ih =>
    refine .cons (hPQ _ _ _ head fun row hrow => by simp [hrow]) (ih fun s rs g hg hsub => ?_)
    exact hPQ s rs g hg fun row hrow => by
      rw [flatten_cons]
      exact mem_append_right _ (hsub row hrow)

lemma NodeRep.endLag (h : NodeRep P chunkCap start old pre mems rss ng)
    (hPQ : ∀ start rows g, P start rows g → (∀ row ∈ rows, row ∈ rss.flatten) → Q start rows g) :
    NodeRep Q chunkCap start old pre mems rss ng :=
  ⟨h.groups, h.persistent, h.mems.congr (GroupsRep.endLag h.mems.reps hPQ) rfl, h.numRows,
    h.nonempty⟩

lemma mem_undoBuffer : r ∈ s.undoBuffer id ↔ r ∈ s.records ∧ r.transactionID = id := by
  simp [undoBuffer]

lemma mem_removeTransaction :
    r ∈ s.removeTransaction id ↔ r ∈ s.records ∧ r.transactionID ≠ id := by
  simp [removeTransaction]

lemma commitRows_of_ne (hne : ∀ row ∈ rows, row.1 ≠ .active id) : commitRows id ts rows = rows := by
  conv_rhs => rw [← map_id rows]
  refine map_congr_left fun row hrow => ?_
  rw [commit, if_neg (hne row hrow)]
  rfl

/-- Committed rows need no record. -/
lemma recorded_commit (h : Recorded base rows s.records) :
    Recorded base (commitRows id ts rows) (s.removeTransaction id) := by
  have hlen : (commitRows id ts rows).length = rows.length := length_map ..
  refine ⟨fun r hr => ?_, fun r hr => ?_, fun r hr i hcov => ?_, fun i id' hi => ?_, ?_⟩
  · exact h.valid r (mem_removeTransaction.mp hr).1
  · rw [hlen]
    exact h.inRange r (mem_removeTransaction.mp hr).1
  · obtain ⟨hr, hne⟩ := mem_removeTransaction.mp hr
    rw [insOf_commitRows]
    exact map_commit_eq_active_iff.mpr ⟨h.own r hr i hcov, hne⟩
  · rw [insOf_commitRows] at hi
    obtain ⟨hi, hne⟩ := map_commit_eq_active_iff.mp hi
    obtain ⟨r, hr, hid, hcov⟩ := h.covered i id' hi
    exact ⟨r, mem_removeTransaction.mpr ⟨hr, hid ▸ hne⟩, hid, hcov⟩
  · exact h.sorted.filter _

lemma rollbackRows_of_ne (hne : ∀ row ∈ rows, row.1 ≠ .active id) :
    rollbackRows id rows = rows := by
  rw [rollbackRows, filter_eq_self]
  exact fun row hrow => decide_eq_true (hne row hrow)

lemma rollbackRows_append_own (hne : ∀ row ∈ rows, row.1 ≠ .active id)
    (new : List (Fin m → V)) : rollbackRows id (rows ++ stamped (.active id) new) = rows := by
  have hown : (stamped (.active id) new).filter (·.1 ≠ .active id) = [] := by
    rw [filter_eq_nil_iff]
    intro row hrow
    obtain ⟨v, -, rfl⟩ := mem_map.mp hrow
    simp
  rw [rollbackRows, filter_append, hown, append_nil]
  exact rollbackRows_of_ne hne

/-- The records of the other transactions after a rollback of the rows at the end. -/
lemma recorded_rollback (h : Recorded base (rows ++ stamped (.active id) new) s.records)
    (hrows : ∀ row ∈ rows, row.1 ≠ .active id)
    (hother : ∀ r ∈ s.records, r.transactionID ≠ id → r.startRow + r.numRows ≤ base + rows.length) :
    Recorded base rows (s.removeTransaction id) := by
  have hins : ∀ i, i < rows.length → insOf (rows ++ stamped (.active id) new) i = insOf rows i :=
    fun i hi => by rw [insOf, getElem?_append_left hi, insOf]
  refine ⟨fun r hr => ?_, fun r hr => ?_, fun r hr i hcov => ?_, fun i id' hi => ?_, ?_⟩
  · exact h.valid r (mem_removeTransaction.mp hr).1
  · obtain ⟨hr, hne⟩ := mem_removeTransaction.mp hr
    exact ⟨(h.inRange r hr).1, hother r hr hne⟩
  · obtain ⟨hr, hne⟩ := mem_removeTransaction.mp hr
    have := hother r hr hne
    have := hcov.2
    rw [← hins i (by omega)]
    exact h.own r hr i hcov
  · obtain ⟨row, hrow, hact⟩ := Option.map_eq_some_iff.mp hi
    have hlt : i < rows.length := (List.getElem?_eq_some_iff.mp hrow).1
    obtain ⟨r, hr, hid, hcov⟩ := h.covered i id' (by rw [hins i hlt]; exact hi)
    refine ⟨r, mem_removeTransaction.mpr ⟨hr, fun heq => ?_⟩, hid, hcov⟩
    refine hrows row (mem_of_getElem? hrow) ?_
    rw [hact, ← heq, hid]
  · exact h.sorted.filter _

variable (h : SharedRep chunkCap start old pre rows s)

include h

/-- Appending keeps the representation. -/
lemma append_step (hcap : 0 < cap) (hchunk : 0 < chunkCap)
    (hvalid : (WriterAction.append id new).Valid) (hallowed : s.Allowed (.append id new)) :
    ∃ s', step chunkCap s (.append id new) = some s' ∧
      SharedRep chunkCap start old pre (rowsAfter rows (.append id new)) s' := by
  obtain ⟨mems, rss, hnode, hflat⟩ := h.node
  have hid : StampOk (some (.active id)) := hvalid
  obtain ⟨mems', rss', ng', hrun, hnode', hflat'⟩ := append_groups hcap hchunk hnode hid hallowed
  have hnum : s.nodeGroup.numRows = start + old.length + rows.length := by
    rw [hnode.numRows, hflat]
  refine ⟨⟨ng', s.records ++ [⟨id, s.nodeGroup.numRows, new.length⟩]⟩,
    bind_eq_some_iff.mpr ⟨ng', hrun, rfl⟩, ⟨mems', rss', hnode', ?_⟩, ?_, ?_⟩
  · rw [hflat', hflat]
    rfl
  · exact h.ok.append_stamped hid new
  · rw [hnum]
    exact h.recorded.append hid new

lemma ne_active_of_undoBuffer_nil
    (hnil : s.undoBuffer id = []) : ∀ row ∈ rows, row.1 ≠ .active id := by
  intro row hrow hact
  obtain ⟨i, hi, rfl⟩ := mem_iff_getElem.mp hrow
  obtain ⟨r, hr, hid, -⟩ := h.recorded.covered i id (by
    rw [insOf, getElem?_eq_getElem hi, map_some, hact])
  have hmem := mem_undoBuffer.mpr ⟨hr, hid⟩
  rw [hnil] at hmem
  exact not_mem_nil hmem

/-- Committing keeps the representation. -/
lemma commit_step (hcap : 0 < cap) (hvalid : (WriterAction.commit id ts : WriterAction m V).Valid) :
    ∃ s', step chunkCap s (.commit id ts) = some s' ∧
      SharedRep chunkCap start old pre (rowsAfter rows (.commit id ts)) s' := by
  obtain ⟨mems, rss, hnode, rfl⟩ := h.node
  obtain ⟨hts0, hts⟩ := hvalid
  obtain ⟨mems', rss', ng', hrun, hnode', hflat'⟩ : ∃ mems' rss' ng',
      (s.undoBuffer id).foldlM (commitRecord chunkCap ts) s.nodeGroup = some ng' ∧
      NodeRep (LaggedRep Lag.none chunkCap) chunkCap start old pre mems' rss' ng' ∧
      rss'.flatten = commitRows id ts rss.flatten := by
    by_cases hnil : s.undoBuffer id = []
    · rw [hnil]
      exact ⟨mems, rss, s.nodeGroup, rfl, hnode,
        (commitRows_of_ne (ne_active_of_undoBuffer_nil h hnil)).symm⟩
    · obtain ⟨r0, hr0⟩ := exists_mem_of_ne_nil _ hnil
      have hid : StampOk (some (.active id)) := by
        obtain ⟨hmem, hid0⟩ := mem_undoBuffer.mp hr0
        exact hid0 ▸ h.recorded.valid r0 hmem
      obtain ⟨mems', rss', ng', hrun, hnode', hsnd, hins⟩ := commitRecords_spec hcap hid hts hts0
        (s.undoBuffer id) (hnode.mono fun _ _ _ hm => hm.startLag _) h.ok (by
          intro r hr
          obtain ⟨hr, hrid⟩ := mem_undoBuffer.mp hr
          exact ⟨(h.recorded.inRange r hr).1, (h.recorded.inRange r hr).2,
            fun i hcov => .inl (hrid ▸ h.recorded.own r hr i hcov)⟩)
      -- the rows of the transaction are those that its records cover
      have hrows : rss'.flatten = commitRows id ts rss.flatten := by
        refine rows_ext ?_ fun i => ?_
        · rw [hsnd, commitRows, map_map]
          rfl
        · rw [insOf_commitRows]
          rcases hins i with ⟨heq, hno⟩ | ⟨heq, r, hr, hcov⟩
          · rw [heq]
            cases hi : insOf rss.flatten i with
            | none => rfl
            | some x =>
              have hx : x ≠ .active id := by
                rintro rfl
                obtain ⟨r, hr, hrid, hcov⟩ := h.recorded.covered i id hi
                exact hno r (mem_undoBuffer.mpr ⟨hr, hrid⟩) hcov
              rw [map_some, commit, if_neg hx]
          · obtain ⟨hr, hrid⟩ := mem_undoBuffer.mp hr
            rw [heq, h.recorded.own r hr i hcov, hrid, map_some, commit, if_pos rfl]
      refine ⟨mems', rss', ng', hrun, ?_, hrows⟩
      have hne : ∀ row ∈ rss'.flatten, row.1 ≠ .active id := by
        intro row hrow hact
        rw [hrows] at hrow
        obtain ⟨row0, -, rfl⟩ := mem_map.mp hrow
        simp only [commit] at hact
        split_ifs at hact with hc
        exact hc hact
      exact NodeRep.endLag hnode' fun start' rows' g hm hsub =>
        hm.endCommit fun row hrow => hne row (hsub row hrow)
  refine ⟨⟨ng', s.removeTransaction id⟩, bind_eq_some_iff.mpr ⟨ng', hrun, rfl⟩,
    ⟨mems', rss', hnode', hflat'⟩, ?_, recorded_commit h.recorded⟩
  intro row hrow
  obtain ⟨row0, hrow0, rfl⟩ := mem_map.mp hrow
  have hok0 := h.ok row0 hrow0
  simp only [commit]
  split_ifs
  · exact hts
  · exact hok0

/-- A transaction that owns the end of the rows: its rows lie behind all others. -/
lemma exists_suffix {first : InsertRecord} (hfirst : first ∈ (s.undoBuffer id).head?)
    (hsum : s.nodeGroup.numRows = first.startRow + ((s.undoBuffer id).map (·.numRows)).sum) :
    ∃ rows1 new, rows = rows1 ++ stamped (.active id) new ∧
      first.startRow = start + old.length + rows1.length ∧
      Tiles (start + old.length + rows1.length) (s.undoBuffer id)
        (start + old.length + rows1.length + new.length) ∧
      ∀ row ∈ rows1, row.1 ≠ .active id := by
  obtain ⟨mems, rss, hnode, rfl⟩ := h.node
  have hmem := mem_undoBuffer.mp (mem_of_mem_head? hfirst)
  obtain ⟨q, hq⟩ : ∃ q, first.startRow = start + old.length + q :=
    ⟨first.startRow - (start + old.length), by have := (h.recorded.inRange _ hmem.1).1; omega⟩
  have hqle : q ≤ rss.flatten.length := by
    have := (h.recorded.inRange _ hmem.1).2
    omega
  have hsorted : (s.undoBuffer id).Pairwise fun r r' => r.startRow + r.numRows ≤ r'.startRow :=
    h.recorded.sorted.filter _
  -- the first record starts before all others
  have hfirst_le : ∀ r ∈ s.undoBuffer id, first.startRow ≤ r.startRow := by
    intro r hr
    cases hbuf : s.undoBuffer id with
    | nil =>
      rw [hbuf] at hr
      exact absurd hr not_mem_nil
    | cons r0 rs =>
      rw [hbuf] at hfirst hr hsorted
      obtain rfl : r0 = first := by simpa using hfirst
      rcases mem_cons.mp hr with rfl | hr
      · exact le_rfl
      · have := (pairwise_cons.mp hsorted).1 r hr
        omega
  have htiles := tiles_of_sum hsorted
    (fun r hr => (h.recorded.inRange r (mem_undoBuffer.mp hr).1).2) hfirst_le
    (hsum.symm.trans hnode.numRows)
  have hlen1 : (rss.flatten.take q).length = q := by rw [length_take]; omega
  -- the rows from the first record on are those of the transaction
  have hdrop : rss.flatten.drop q = stamped (.active id) ((rss.flatten.drop q).map Prod.snd) := by
    rw [stamped, map_map]
    conv_lhs => rw [← map_id (rss.flatten.drop q)]
    refine map_congr_left fun row hrow => ?_
    obtain ⟨i, hi, rfl⟩ := mem_iff_getElem.mp hrow
    rw [length_drop] at hi
    obtain ⟨r, hr, hcov⟩ := htiles.exists_covers (i := start + old.length + (q + i)) (by omega)
      (by omega)
    obtain ⟨hr, hrid⟩ := mem_undoBuffer.mp hr
    have hins := h.recorded.own r hr (q + i) hcov
    rw [insOf, getElem?_eq_getElem (by omega), map_some, Option.some.injEq, hrid] at hins
    rw [getElem_drop]
    exact Prod.ext hins rfl
  refine ⟨rss.flatten.take q, (rss.flatten.drop q).map Prod.snd, ?_, by rw [hlen1, hq], ?_, ?_⟩
  · rw [← hdrop, take_append_drop]
  · rw [hlen1, length_map, length_drop, ← hq]
    have hend : first.startRow + (rss.flatten.length - q)
        = start + old.length + rss.flatten.length := by omega
    rw [hend]
    exact htiles
  · intro row hrow hact
    obtain ⟨i, hi, rfl⟩ := mem_iff_getElem.mp hrow
    rw [hlen1] at hi
    rw [getElem_take] at hact
    obtain ⟨r, hr, hrid, hcov⟩ := h.recorded.covered i id (by
      rw [insOf, getElem?_eq_getElem (by omega), map_some, hact])
    have := hfirst_le r (mem_undoBuffer.mpr ⟨hr, hrid⟩)
    have := hcov.1
    omega

/-- Rolling back keeps the representation. -/
lemma rollback_step (hcap : 0 < cap) (hallowed : s.Allowed (.rollback id)) :
    ∃ s', step chunkCap s (.rollback id) = some s' ∧
      SharedRep chunkCap start old pre (rowsAfter rows (.rollback id)) s' := by
  cases hhead : (s.undoBuffer id).head? with
  | none =>
    -- a transaction without records
    have hnil : s.undoBuffer id = [] := head?_eq_none_iff.mp hhead
    have hrows : rowsAfter rows (.rollback id) = rows :=
      rollbackRows_of_ne (ne_active_of_undoBuffer_nil h hnil)
    have hrecords : s.removeTransaction id = s.records := by
      rw [removeTransaction, filter_eq_self]
      intro r hr
      refine decide_eq_true fun hid => ?_
      have hmem := mem_undoBuffer.mpr ⟨hr, hid⟩
      rw [hnil] at hmem
      exact not_mem_nil hmem
    refine ⟨⟨s.nodeGroup, s.removeTransaction id⟩,
      bind_eq_some_iff.mpr ⟨s.nodeGroup, by rw [hnil]; rfl, rfl⟩, ?_⟩
    rw [hrows, hrecords]
    exact h
  | some first =>
    obtain ⟨hsum, hother⟩ := hallowed first hhead
    have hmem := mem_undoBuffer.mp (mem_of_mem_head? hhead)
    have hid : StampOk (some (.active id)) := hmem.2 ▸ h.recorded.valid first hmem.1
    obtain ⟨rows1, new, rfl, hstart, htiles, hne⟩ := exists_suffix h hhead hsum
    have hok1 : StampsOk rows1 := fun row hrow => h.ok row (mem_append_left _ hrow)
    obtain ⟨mems, rss, hnode, hflat⟩ := h.node
    obtain ⟨mems', rss', ng', hrun, hnode', hflat'⟩ := rollbackRecords_spec hcap hid
      (s.undoBuffer id) (hnode.mono fun _ _ _ hm => hm.startLag _) hok1 hflat htiles
    have hend := NodeRep.endLag hnode' fun start' rows' g hm hsub =>
      hm.endRollback fun row hrow => hne row (hflat' ▸ hsub row hrow)
    have hafter : rowsAfter (rows1 ++ stamped (.active id) new) (.rollback id) = rows1 :=
      rollbackRows_append_own hne new
    refine ⟨⟨ng', s.removeTransaction id⟩, bind_eq_some_iff.mpr ⟨ng', hrun, rfl⟩, ?_⟩
    rw [hafter]
    exact ⟨⟨mems', rss', hend, hflat'⟩, hok1, recorded_rollback h.recorded hne fun r hr hr' =>
      (hother r hr hr').trans hstart.le⟩

/-- **Each step** keeps the representation. -/
lemma step_rep (hcap : 0 < cap) (hchunk : 0 < chunkCap)
    (hvalid : a.Valid) (hallowed : s.Allowed a) :
    ∃ s', step chunkCap s a = some s' ∧ SharedRep chunkCap start old pre (rowsAfter rows a) s' := by
  cases a with
  | append id new => exact append_step h hcap hchunk hvalid hallowed
  | commit id ts => exact commit_step h hcap hvalid
  | rollback id => exact rollback_step h hcap hallowed

/-! ### The rows of one transaction -/

/-- A rollback that removes the rows at the end leaves the other rows where they are. -/
lemma rollbackRows_getElem? (hallowed : s.Allowed (.rollback id)) {row : StampedRow m V}
    (hrow : rows[q]? = some row) (hne : row.1 ≠ .active id) :
    (rollbackRows id rows)[q]? = some row := by
  cases hhead : (s.undoBuffer id).head? with
  | none =>
    have hnil : s.undoBuffer id = [] := head?_eq_none_iff.mp hhead
    rw [rollbackRows_of_ne (ne_active_of_undoBuffer_nil h hnil)]
    exact hrow
  | some first =>
    obtain ⟨hsum, -⟩ := hallowed first hhead
    obtain ⟨rows1, new, rfl, -, -, hrows1⟩ := exists_suffix h hhead hsum
    rw [rollbackRows_append_own hrows1]
    by_cases hq : q < rows1.length
    · rwa [getElem?_append_left hq] at hrow
    · rw [getElem?_append_right (by omega)] at hrow
      obtain ⟨v, -, rfl⟩ := mem_map.mp (mem_of_getElem? hrow)
      exact absurd rfl hne

/-- The rows from row `q` on are `new`, with the stamp `x`. -/
def Block (q : ℕ) (x : Stamp) (new : List (Fin m → V)) (rows : List (StampedRow m V)) : Prop :=
  ∀ i (hi : i < new.length), rows[q + i]? = some (x, new.get ⟨i, hi⟩)

/-- The action ends the transaction with the stamp `x`. -/
def Ends (x : Stamp) (a : WriterAction m V) : Prop :=
  ∃ id, x = .active id ∧ (a = .rollback id ∨ ∃ ts, a = .commit id ts)

/-- Rows keep their place, their values and their stamp while their transaction does not end. -/
lemma Block.rowsAfter (hallowed : s.Allowed a)
    (hblock : Block q x new rows) (hends : ¬Ends x a) : Block q x new (rowsAfter rows a) := by
  intro i hi
  have hrow := hblock i hi
  cases a with
  | append id new =>
    exact (List.getElem?_append_left (List.getElem?_eq_some_iff.mp hrow).1).trans hrow
  | commit id ts =>
    have hne : x ≠ .active id := fun hx => hends ⟨id, hx, .inr ⟨ts, rfl⟩⟩
    rw [Ladybug.rowsAfter, commitRows, getElem?_map, hrow, map_some, commit, if_neg hne]
  | rollback id =>
    exact rollbackRows_getElem? h hallowed hrow fun hx => hends ⟨id, hx, .inl rfl⟩

/-- **A run in which the transaction of the rows does not end.** -/
theorem run_block (hcap : 0 < cap) (hchunk : 0 < chunkCap) {as : List (WriterAction m V)}
    (hvalid : ∀ a ∈ as, a.Valid)
    (hguard : Fold.Guarded (step chunkCap) Allowed s as) (has : ∀ a ∈ as, ¬Ends x a)
    (hblock : Block q x new rows) :
    ∃ s' rows', run chunkCap s as = some s' ∧ SharedRep chunkCap start old pre rows' s' ∧
      Block q x new rows' := by
  obtain ⟨s', hrun, rows', h', hblock'⟩ := Fold.foldlM_guarded (step chunkCap)
    (fun s a => s.Allowed a ∧ a.Valid ∧ ¬Ends x a)
    (fun s => ∃ rows', SharedRep chunkCap start old pre rows' s ∧ Block q x new rows')
    (by
      rintro s a ⟨rows, h, hblock⟩ ⟨hallowed, hvalid, hends⟩
      obtain ⟨s', hstep, h'⟩ := step_rep h hcap hchunk hvalid hallowed
      exact ⟨s', hstep, _, h', hblock.rowsAfter h hallowed hends⟩)
    ⟨rows, h, hblock⟩ (hguard.and_forall fun a ha => ⟨hvalid a ha, has a ha⟩)
  exact ⟨s', rows', hrun, h', hblock'⟩

omit h in
lemma init_sharedRep (chunkCap : ℕ) (p : Option (PersistentGroup m V)) :
    ∃ pre, SharedRep chunkCap (firstRow p) (stamped (.committed 0) (p.elim [] (·.rows))) pre []
      (init p : SharedNodeGroup cap m V) := by
  obtain ⟨pre, h⟩ : ∃ pre, NodeRep (MemRep chunkCap) chunkCap (firstRow p)
      (stamped (.committed 0) (p.elim [] (·.rows))) pre [] []
      (NodeGroup.init p : NodeGroup cap m V) := init_rep chunkCap p
  exact ⟨pre, ⟨[], [], h.mono fun _ _ _ hm => hm.laggedRep, rfl⟩, by simp [StampsOk],
    Recorded.nil fun i id => by simp [insOf]⟩

/-- A row whose transaction has committed is found by later transactions. -/
lemma SharedRep.read (hcap : 0 < cap) (hold : StampsOk old) {values : Fin m → V}
    (hrow : rows[q]? = some (.committed ts, values)) {T : Transaction} (hT : ts ≤ T.startTS) :
    s.nodeGroup.lookup chunkCap T (start + old.length + q)
        = some (some (start + old.length + q, fun c => some (values c))) ∧
      ∀ sv fuel, s.nodeGroup.numRows < fuel → ∃ out, s.nodeGroup.scanAll T sv fuel = some out ∧
        (start + old.length + q, fun c => some (values c)) ∈ out := by
  obtain ⟨mems, rss, hnode, rfl⟩ := h.node
  have hgroup := hnode.mono fun _ _ _ hm => hm.groupRep
  have hok : StampsOk (old ++ rss.flatten) := by
    intro row hrow
    rcases mem_append.mp hrow with hrow | hrow
    · exact hold row hrow
    · exact h.ok row hrow
  have hget : (old ++ rss.flatten)[old.length + q]? = some (.committed ts, values) := by
    rw [getElem?_append_right (by omega), Nat.add_sub_cancel_left]
    exact hrow
  obtain ⟨hlt, hget'⟩ := List.getElem?_eq_some_iff.mp hget
  have hvis : ((old ++ rss.flatten)[old.length + q]).1.visibleTo T.id T.startTS = true := by
    rw [hget']
    simpa using hT
  refine ⟨?_, fun sv fuel hfuel => ?_⟩
  · have hlook := NodeGroup.lookup_spec (T := T) hcap hgroup hok hlt
    rw [if_pos hvis, hget', ← Nat.add_assoc] at hlook
    exact hlook
  -- the scan visits the row
  · have hne : old ++ rss.flatten ≠ [] := ne_nil_of_length_pos (by omega)
    have hlen : (old ++ rss.flatten).length < fuel := by
      rw [hnode.numRows] at hfuel
      rw [length_append]
      omega
    refine ⟨_, scanAll_spec hcap hgroup hok hne hlen sv, mem_map.mpr
      ⟨((.committed ts, values), start + old.length + q), mem_filter.mpr ⟨?_, ?_⟩, rfl⟩⟩
    · refine mem_of_getElem? (i := old.length + q) ?_
      rw [getElem?_zipIdx, hget, map_some, Nat.add_assoc]
    · simpa using hT

end Steps

/-- **The rows of a committed transaction stay.** Whatever the other transactions do before, between
and after its append and its commit, later transactions find every row of transaction `id` at the
row index at which it was appended, with the values that were appended. -/
theorem run_rows {chunkCap : ℕ} (hcap : 0 < cap) (hchunk : 0 < chunkCap)
    (p : Option (PersistentGroup m V)) (as₁ as₂ as₃ : List (WriterAction m V)) (id ts : ℕ)
    (new : List (Fin m → V))
    (hvalid : ∀ a ∈ as₁ ++ .append id new :: (as₂ ++ .commit id ts :: as₃), a.Valid)
    (hguard : Fold.Guarded (step chunkCap) Allowed (init p : SharedNodeGroup cap m V)
      (as₁ ++ .append id new :: (as₂ ++ .commit id ts :: as₃)))
    (hactive : ∀ a ∈ as₂, a ≠ .rollback id ∧ ∀ ts', a ≠ .commit id ts') :
    ∃ s₁ s' : SharedNodeGroup cap m V, run chunkCap (init p) as₁ = some s₁ ∧
      run chunkCap (init p) (as₁ ++ .append id new :: (as₂ ++ .commit id ts :: as₃)) = some s' ∧
      ∀ T : Transaction, ts ≤ T.startTS → ∀ i (hi : i < new.length),
        s'.nodeGroup.lookup chunkCap T (s₁.nodeGroup.numRows + i)
            = some (some (s₁.nodeGroup.numRows + i, fun c => some (new.get ⟨i, hi⟩ c))) ∧
          ∀ sv fuel, s'.nodeGroup.numRows < fuel →
            ∃ out, s'.nodeGroup.scanAll T sv fuel = some out ∧
              (s₁.nodeGroup.numRows + i, fun c => some (new.get ⟨i, hi⟩ c)) ∈ out := by
  obtain ⟨pre, hinit⟩ := init_sharedRep (m := m) (V := V) chunkCap p
  set old := stamped (.committed 0) (p.elim [] (·.rows))
  simp only [mem_append, mem_cons] at hvalid
  -- before the append
  obtain ⟨hguard1, hrest1⟩ := hguard.of_append
  obtain ⟨s₁, rows1, hrun1, h1, -⟩ := run_block hinit hcap hchunk
    (fun a ha => hvalid a (by tauto)) hguard1 (by rintro a - ⟨id, hx, -⟩; cases hx)
    (show Block 0 (.committed 0) [] [] from nofun)
  -- the append
  obtain ⟨hallowed2, hrest2⟩ := hrest1 s₁ hrun1
  obtain ⟨s2, hstep2, h2⟩ := step_rep h1 hcap hchunk (hvalid _ (by tauto)) hallowed2
  have hblock2 : Block rows1.length (.active id) new (rowsAfter rows1 (.append id new)) := by
    intro i hi
    rw [rowsAfter, getElem?_append_right (by omega), Nat.add_sub_cancel_left, stamped,
      getElem?_map, getElem?_eq_getElem hi]
    rfl
  -- up to the commit
  obtain ⟨hguard3, hrest3⟩ := (hrest2 s2 hstep2).of_append
  obtain ⟨s3, rows3, hrun3, h3, hblock3⟩ := run_block h2 hcap hchunk
    (fun a ha => hvalid a (by tauto)) hguard3 (by
      rintro a ha ⟨id', hx, hend⟩
      obtain rfl := Stamp.active.inj hx
      rcases hend with rfl | ⟨ts', rfl⟩
      · exact (hactive _ ha).1 rfl
      · exact (hactive _ ha).2 ts' rfl) hblock2
  -- the commit
  obtain ⟨hallowed4, hrest4⟩ := hrest3 s3 hrun3
  obtain ⟨s4, hstep4, h4⟩ := step_rep h3 hcap hchunk (hvalid _ (by tauto)) hallowed4
  have hblock4 : Block rows1.length (.committed ts) new (rowsAfter rows3 (.commit id ts)) := by
    intro i hi
    rw [rowsAfter, commitRows, getElem?_map, hblock3 i hi, map_some, commit, if_pos rfl]
  -- after the commit
  obtain ⟨s', rows', hrun', h', hblock'⟩ := run_block h4 hcap hchunk
    (fun a ha => hvalid a (by tauto)) (hrest4 s4 hstep4)
    (by rintro a - ⟨id, hx, -⟩; cases hx) hblock4
  have hnum : s₁.nodeGroup.numRows = firstRow p + old.length + rows1.length := by
    obtain ⟨mems, rss, hnode, hflat⟩ := h1.node
    rw [hnode.numRows, hflat]
  refine ⟨s₁, s', hrun1, ?_, fun T hT i hi => ?_⟩
  · exact Fold.foldlM_append_some.mpr ⟨s₁, hrun1, Fold.foldlM_cons_some.mpr ⟨s2, hstep2,
      Fold.foldlM_append_some.mpr ⟨s3, hrun3, Fold.foldlM_cons_some.mpr ⟨s4, hstep4, hrun'⟩⟩⟩⟩
  · have hok : StampsOk old := by
      intro row hrow
      obtain ⟨v, -, rfl⟩ := mem_map.mp hrow
      show 0 < startTransactionID
      decide
    have hread := h'.read hcap hok (hblock' i hi) hT
    rw [← Nat.add_assoc, ← hnum] at hread
    exact hread

instance (a : WriterAction m V) : Decidable a.Valid :=
  match a with
  | .append _ _ => inferInstanceAs (Decidable (_ ∧ _))
  | .commit _ _ => inferInstanceAs (Decidable (_ ∧ _))
  | .rollback _ => .isTrue trivial

instance (ng : NodeGroup cap m V) : Decidable ng.TrimmedChunks :=
  inferInstanceAs (Decidable (∀ _ ∈ _, _ → _))

instance (s : SharedNodeGroup cap m V) (a : WriterAction m V) :
    Decidable (s.Allowed a) :=
  match a with
  | .append _ rows => inferInstanceAs (Decidable (rows = [] ∨ _))
  | .commit _ _ => .isTrue trivial
  | .rollback _ => inferInstanceAs (Decidable (∀ first ∈ _, _))

/-- Two writers whose rows fill a chunked group each: the second one rolls back. -/
def rollbackAtEnd : List (WriterAction 1 ℕ) :=
  [.append startTransactionID [fun _ => 10, fun _ => 11],
    .append (startTransactionID + 1) [fun _ => 20], .rollback (startTransactionID + 1),
    .commit startTransactionID 1]

/-- The rows of the first writer stay. -/
theorem run_rows_rollbackAtEnd :
    Fold.Guarded (step 2) Allowed (init none : SharedNodeGroup 4 1 ℕ) rollbackAtEnd ∧
    ∃ s₁ s' : SharedNodeGroup 4 1 ℕ, run 2 (init none) [] = some s₁ ∧
      run 2 (init none) rollbackAtEnd = some s' ∧
      s'.nodeGroup.lookup 2 reader (s₁.nodeGroup.numRows + 1)
        = some (some (s₁.nodeGroup.numRows + 1, fun _ => some 11)) := by
  have hguard : Fold.Guarded (step 2) Allowed (init none : SharedNodeGroup 4 1 ℕ)
      rollbackAtEnd := by decide +kernel
  obtain ⟨s₁, s', hrun1, hrun', hread⟩ := run_rows (show 0 < 4 by decide) (by decide) none []
    [.append (startTransactionID + 1) [fun _ => 20], .rollback (startTransactionID + 1)] []
    startTransactionID 1 [fun _ => 10, fun _ => 11] (by decide) hguard (by simp)
  exact ⟨hguard, s₁, s', hrun1, hrun', (hread reader (by decide) 1 (by decide)).1⟩

/-- A committed row behind the rows of a writer that rolls back: the rollback cuts the node group at
the first row of its writer, and the committed row is gone. -/
theorem run_rows_cut :
    ((run 2048 (init none : SharedNodeGroup 2048 1 ℕ)
        [.append startTransactionID [fun _ => 10], .append (startTransactionID + 1) [fun _ => 20],
         .commit (startTransactionID + 1) 1, .rollback startTransactionID]).map
      fun s => (s.nodeGroup.numRows, s.nodeGroup.chunkedGroups.length,
        (s.nodeGroup.lookup 2048 reader 1).isSome)) = some (0, 0, false) := by
  decide +kernel

end SharedNodeGroup

end Ladybug
