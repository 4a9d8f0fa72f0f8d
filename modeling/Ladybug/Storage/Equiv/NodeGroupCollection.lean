import Ladybug.Storage.Equiv.WriterInterleaving
import Ladybug.Storage.NodeGroupCollection

/-!
# Where a node group collection appends rows

* `appendLoop_some` and `appendLoop_returns`: what the loop has done when it returns, and when it
  does.
* `nodeGroupCollection_append_iff`: an append ends, with its rows behind the others, unless the
  last node group has reserved rows that it does not have and is too small for the new ones.
-/

namespace Ladybug

open List Option

variable {cap m : ℕ} {V : Type} {capacity chunkCap transactionID fuel n : ℕ}

namespace CollectedGroup

variable {g g' : CollectedGroup cap m V} {rows : List (Fin m → V)}

/-- The node group has no more rows than it has reserved, and there is room for those. -/
def Counted (capacity : ℕ) (g : CollectedGroup cap m V) : Prop :=
  g.numRows ≤ g.nextRowToAppend ∧ g.nextRowToAppend ≤ capacity

/-- The chunked groups of the node group hold their rows, and nothing behind them. -/
def Settled (chunkCap : ℕ) (g : CollectedGroup cap m V) : Prop :=
  ∃ start old pre mems rss,
    NodeRep (MemRep chunkCap) chunkCap start old pre mems rss g.group.nodeGroup

lemma counted_new : Counted capacity (new : CollectedGroup cap m V) := ⟨le_rfl, Nat.zero_le _⟩

lemma settled_new : Settled chunkCap (new : CollectedGroup cap m V) :=
  ⟨_, _, _, [], [], (NodeGroup.init_rep chunkCap none).choose_spec⟩

/-- An append moves both counters. -/
lemma append_some (h : g.append chunkCap transactionID rows = some g') :
    g'.numRows = g.numRows + rows.length ∧
      g'.nextRowToAppend = g.nextRowToAppend + rows.length := by
  obtain ⟨group, hstep, hg'⟩ := bind_eq_some_iff.mp h
  obtain ⟨ng, hng, hgroup⟩ := bind_eq_some_iff.mp hstep
  obtain ⟨groups, -, hgroups⟩ := bind_eq_some_iff.mp hng
  cases hgroups
  cases hgroup
  cases hg'
  exact ⟨rfl, rfl⟩

/-- A settled group takes the rows. -/
lemma Settled.append (hcap : 0 < cap) (hchunk : 0 < chunkCap) (h : g.Settled chunkCap)
    (hid : StampOk (some (.active transactionID))) (rows : List (Fin m → V)) :
    ∃ g', g.append chunkCap transactionID rows = some g' ∧ g'.Settled chunkCap := by
  obtain ⟨start, old, pre, mems, rss, h⟩ := h
  obtain ⟨mems', rss', ng', hrun, h', -⟩ := NodeGroup.append_spec hcap hchunk h hid rows
  exact ⟨_, bind_eq_some_iff.mpr ⟨_, bind_eq_some_iff.mpr ⟨ng', hrun, rfl⟩, rfl⟩,
    start, old, pre, mems', rss', h'⟩

end CollectedGroup

namespace NodeGroupCollection

open CollectedGroup

variable {c c' gs gs' : NodeGroupCollection cap m V} {g : CollectedGroup cap m V}

/-- The offsets of the rows: row `row` of node group `i` is `i * capacity + row`. -/
def offsets (capacity : ℕ) (gs : NodeGroupCollection cap m V) : List ℕ :=
  gs.zipIdx.flatMap fun p => range' (p.2 * capacity) p.1.numRows

/-- The offset behind the rows of the last node group. -/
def endOffset (capacity : ℕ) (gs : NodeGroupCollection cap m V) : ℕ :=
  gs.getLast?.elim 0 fun g => (gs.length - 1) * capacity + g.numRows

/-- The append returns, and its rows are consecutive and come right behind all others. -/
def AppendsBehind (capacity chunkCap transactionID : ℕ) (c : NodeGroupCollection cap m V)
    (batches : List (List (Fin m → V))) : Prop :=
  (∃ fuel c', c.append capacity chunkCap transactionID fuel batches = some c' ∧
    offsets capacity c'
      = offsets capacity c ++ range' (endOffset capacity c) batches.flatten.length) ∧
  ∀ o ∈ offsets capacity c, o < endOffset capacity c

/-- The last node group is full, or it has all rows that it has reserved, or `n` rows fit. -/
def HasRoom (capacity : ℕ) (gs : NodeGroupCollection cap m V) (n : ℕ) : Prop :=
  ∀ g ∈ gs.getLast?, g.isFull capacity ∨ g.numRows = g.nextRowToAppend ∨
    n ≤ g.getNumRowsLeftToAppend capacity

/-- The offsets of the last group come last. -/
lemma offsets_concat (gs : NodeGroupCollection cap m V) (g : CollectedGroup cap m V) :
    offsets capacity (gs ++ [g])
      = offsets capacity gs ++ range' (gs.length * capacity) g.numRows := by
  simp [offsets, zipIdx_append]

@[simp] lemma endOffset_concat (gs : NodeGroupCollection cap m V) (g : CollectedGroup cap m V) :
    endOffset capacity (gs ++ [g]) = gs.length * capacity + g.numRows := by
  simp [endOffset]

@[simp] lemma hasRoom_concat : HasRoom capacity (gs ++ [g]) n ↔
    g.numRows = capacity ∨ g.numRows = g.nextRowToAppend ∨ n ≤ capacity - g.nextRowToAppend := by
  simp [HasRoom, isFull, getNumRowsLeftToAppend]

@[simp] lemma numRows_new : (new : CollectedGroup cap m V).numRows = 0 := rfl

@[simp] lemma nextRowToAppend_new : (new : CollectedGroup cap m V).nextRowToAppend = 0 := rfl

/-- All node groups are counted, and the last one is settled. -/
structure Ok (capacity chunkCap : ℕ) (gs : NodeGroupCollection cap m V) : Prop where
  counted : ∀ g ∈ gs, g.Counted capacity
  settled : ∀ g ∈ gs.getLast?, g.Settled chunkCap

/-- The node group that takes the next rows has the place of the last one. -/
lemma lastGroup_spec (hcapacity : 0 < capacity) (hgs : ∀ g ∈ gs, g.Counted capacity) :
    ∃ A g, lastGroup capacity gs = (A, g) ∧ g.numRows < capacity ∧
      (∀ g' ∈ A ++ [g], g'.Counted capacity) ∧ (g = new ∨ gs.getLast? = some g) ∧
      offsets capacity (A ++ [g]) = offsets capacity gs ∧
      endOffset capacity (A ++ [g]) = endOffset capacity gs ∧
      ∀ n, HasRoom capacity (A ++ [g]) n ↔ HasRoom capacity gs n := by
  rcases eq_nil_or_concat gs with rfl | ⟨A, g, rfl⟩
  · exact ⟨[], new, rfl, hcapacity, by simp [counted_new], .inl rfl, rfl, by simp [endOffset],
      by simp [HasRoom]⟩
  · rw [concat_eq_append] at hgs ⊢
    rw [lastGroup, getLast?_concat]
    have hle := (hgs g (by simp)).1.trans (hgs g (by simp)).2
    by_cases hfull : g.numRows = capacity
    · refine ⟨A ++ [g], new, by simp [isFull, hfull], hcapacity, ?_, .inl rfl, ?_, ?_, ?_⟩
      · intro g' hg'
        rcases mem_append.mp hg' with hg' | hg'
        · exact hgs g' hg'
        · exact mem_singleton.mp hg' ▸ counted_new
      · rw [offsets_concat (A ++ [g])]
        exact append_nil _
      · rw [endOffset_concat, endOffset_concat, hfull, length_append, Nat.add_mul]
        simp
      · intro n
        rw [hasRoom_concat, hasRoom_concat, hfull]
        simp
    · exact ⟨A, g, by simp [isFull, hfull], by omega, hgs, .inr rfl, rfl, rfl, fun _ => Iff.rfl⟩

/-- The rows of `gs'` are those of `gs` and `n` rows behind them, and as much fits behind those. -/
structure AppendedTo (capacity : ℕ) (gs : NodeGroupCollection cap m V) (n : ℕ)
    (gs' : NodeGroupCollection cap m V) : Prop where
  offsets_eq : offsets capacity gs' = offsets capacity gs ++ range' (endOffset capacity gs) n
  endOffset_eq : endOffset capacity gs' = endOffset capacity gs + n
  hasRoom : ∀ j, HasRoom capacity gs' j ↔ HasRoom capacity gs (n + j)
  counted : ∀ g ∈ gs', g.Counted capacity

lemma AppendedTo.zero (hgs : ∀ g ∈ gs, g.Counted capacity) : AppendedTo capacity gs 0 gs :=
  ⟨(append_nil _).symm, rfl, fun j => by rw [Nat.zero_add], hgs⟩

lemma AppendedTo.trans {gs₁ : NodeGroupCollection cap m V} {k : ℕ}
    (h : AppendedTo capacity gs n gs₁) (h' : AppendedTo capacity gs₁ k gs') :
    AppendedTo capacity gs (n + k) gs' where
  offsets_eq := by
    rw [h'.offsets_eq, h.offsets_eq, h.endOffset_eq, append_assoc, range'_append_1]
  endOffset_eq := by rw [h'.endOffset_eq, h.endOffset_eq, Nat.add_assoc]
  hasRoom j := by rw [h'.hasRoom, h.hasRoom, Nat.add_assoc]
  counted := h'.counted

/-- **One round** appends behind the rows, and appends a row as long as there is room. -/
theorem round_spec (chunkCap transactionID : ℕ) (hcapacity : 0 < capacity)
    (hgs : ∀ g ∈ gs, g.Counted capacity) :
    ∃ A g, lastGroup capacity gs = (A, g) ∧ (g = new ∨ gs.getLast? = some g) ∧
      (∀ rows g', rows.length ≤ g.getNumRowsLeftToAppend capacity →
        g.append chunkCap transactionID rows = some g' →
        AppendedTo capacity gs rows.length (A ++ [g'])) ∧
      ∀ n, HasRoom capacity gs (n + 1) → 0 < g.getNumRowsLeftToAppend capacity := by
  obtain ⟨A, g, hlast, hlt, hcounted, hsame, hoff, hend, hroom⟩ := lastGroup_spec hcapacity hgs
  obtain ⟨hrows, hnext⟩ := hcounted g (by simp)
  refine ⟨A, g, hlast, hsame, fun rows g' h happend => ?_, fun n h => ?_⟩
  · obtain ⟨hnum, hnext'⟩ := append_some happend
    rw [getNumRowsLeftToAppend] at h
    refine ⟨?_, ?_, fun j => ?_, fun g₁ hg₁ => ?_⟩
    · rw [← hoff, ← hend, offsets_concat, offsets_concat, endOffset_concat, append_assoc,
        range'_append_1, hnum]
    · rw [← hend, endOffset_concat, endOffset_concat, hnum, Nat.add_assoc]
    · rw [← hroom, hasRoom_concat, hasRoom_concat, hnum, hnext']
      omega
    · rcases mem_append.mp hg₁ with hg₁ | hg₁
      · exact hcounted g₁ (mem_append_left _ hg₁)
      · rw [mem_singleton.mp hg₁, Counted, hnum, hnext']
        omega
  · rw [← hroom, hasRoom_concat] at h
    rw [getNumRowsLeftToAppend]
    omega

variable {rows : List (Fin m → V)} {batches : List (List (Fin m → V))}

/-- The loop assigns the next offsets. -/
lemma appendLoop_some (hcapacity : 0 < capacity) (hc : ∀ g ∈ c, g.Counted capacity)
    (h : appendLoop capacity chunkCap transactionID fuel c rows = some c') :
    AppendedTo capacity c rows.length c' := by
  induction fuel generalizing c rows with
  | zero =>
    cases rows with
    | nil =>
      cases h
      exact .zero hc
    | cons row rows => cases h
  | succ fuel ih =>
    cases rows with
    | nil =>
      cases h
      exact .zero hc
    | cons row rows =>
      obtain ⟨A, g, hlast, -, hround, -⟩ := round_spec chunkCap transactionID hcapacity hc
      rw [appendLoop, hlast] at h
      obtain ⟨g', happend, hloop⟩ := bind_eq_some_iff.mp h
      have hfirst := hround _ g' (by rw [length_take]; omega) happend
      have hrest := hfirst.trans (ih hfirst.counted hloop)
      rwa [← length_append, take_append_drop] at hrest

section Returns

variable (hcap : 0 < cap) (hchunk : 0 < chunkCap) (hid : StampOk (some (.active transactionID)))
  (hcapacity : 0 < capacity)

include hcap hchunk hid hcapacity

/-- The loop returns if there is room. -/
lemma appendLoop_returns (hc : c.Ok capacity chunkCap) (hroom : HasRoom capacity c rows.length)
    (hfuel : rows.length ≤ fuel) :
    ∃ c', appendLoop capacity chunkCap transactionID fuel c rows = some c' ∧
      c'.Ok capacity chunkCap := by
  induction fuel generalizing c rows with
  | zero =>
    obtain rfl := eq_nil_of_length_eq_zero (Nat.le_zero.mp hfuel)
    exact ⟨c, rfl, hc⟩
  | succ fuel ih =>
    cases rows with
    | nil => exact ⟨c, rfl, hc⟩
    | cons row rows =>
      obtain ⟨A, g, hlast, hsame, hround, hpos⟩ :=
        round_spec chunkCap transactionID hcapacity hc.counted
      have hleft := hpos rows.length hroom
      set k := min (row :: rows).length (g.getNumRowsLeftToAppend capacity) with hk
      have hkpos : 0 < k := by
        rw [hk, length_cons]
        omega
      -- the last group is a fresh one or settled
      have hsettled : g.Settled chunkCap := by
        rcases hsame with rfl | hg
        · exact settled_new
        · exact hc.settled g hg
      obtain ⟨g', happend, hsettled'⟩ := hsettled.append hcap hchunk hid ((row :: rows).take k)
      have hfirst := hround _ g' (by rw [length_take]; omega) happend
      have hok₁ : Ok capacity chunkCap (A ++ [g']) := by
        refine ⟨hfirst.counted, fun g₁ hg₁ => ?_⟩
        rw [getLast?_concat] at hg₁
        exact some.inj hg₁ ▸ hsettled'
      have hroom₁ : HasRoom capacity (A ++ [g']) ((row :: rows).drop k).length := by
        rwa [hfirst.hasRoom, ← length_append, take_append_drop]
      obtain ⟨c', hrun, hok⟩ := ih hok₁ hroom₁ (by rw [length_drop, length_cons] at *; omega)
      rw [appendLoop, hlast]
      exact ⟨c', bind_eq_some_iff.mpr ⟨g', happend, hrun⟩, hok⟩

/-- Batches are appended if there is room. -/
lemma appendBatches_returns (hc : c.Ok capacity chunkCap)
    (hroom : HasRoom capacity c batches.flatten.length) (hfuel : batches.flatten.length ≤ fuel) :
    ∃ c', batches.foldlM (appendLoop capacity chunkCap transactionID fuel) c = some c' := by
  induction batches generalizing c with
  | nil => exact ⟨c, rfl⟩
  | cons rows batches ih =>
    rw [flatten_cons, length_append] at hroom hfuel
    have hrows : HasRoom capacity c rows.length := fun g hg =>
      (hroom g hg).imp_right (Or.imp_right (Nat.le_of_add_right_le ·))
    obtain ⟨c₁, hloop, hc₁⟩ := appendLoop_returns hcap hchunk hid hcapacity hc hrows
      (Nat.le_of_add_right_le hfuel)
    obtain ⟨c', hc'⟩ := ih hc₁
      (((appendLoop_some hcapacity hc.counted hloop).hasRoom _).mpr hroom)
      (Nat.le_of_add_left_le hfuel)
    exact ⟨c', Fold.foldlM_cons_some.mpr ⟨c₁, hloop, hc'⟩⟩

end Returns

lemma appendBatches_some (hcapacity : 0 < capacity) (hc : ∀ g ∈ c, g.Counted capacity)
    (h : batches.foldlM (appendLoop capacity chunkCap transactionID fuel) c = some c') :
    AppendedTo capacity c batches.flatten.length c' := by
  induction batches generalizing c with
  | nil =>
    cases h
    exact .zero hc
  | cons rows batches ih =>
    obtain ⟨c₁, hstep, hrest⟩ := Fold.foldlM_cons_some.mp h
    have hfirst := appendLoop_some hcapacity hc hstep
    rw [flatten_cons, length_append]
    exact hfirst.trans (ih hfirst.counted hrest)

/-- Assigned offsets are before the end. -/
lemma lt_endOffset (hgs : ∀ g ∈ gs, g.Counted capacity) :
    ∀ o ∈ offsets capacity gs, o < endOffset capacity gs := by
  intro o ho
  rcases eq_nil_or_concat gs with rfl | ⟨A, g, rfl⟩
  · cases ho
  · rw [concat_eq_append] at hgs ho ⊢
    rw [offsets_concat, mem_append, mem_range'_1] at ho
    rw [endOffset_concat]
    refine ho.elim (fun ho => ?_) And.right
    -- a row of an earlier node group
    obtain ⟨⟨g', i⟩, hi, ho⟩ := mem_flatMap.mp ho
    obtain ⟨hlt, hg'⟩ := mem_zipIdx' hi
    obtain ⟨hle, hle'⟩ := hgs g' (mem_append_left _ (hg' ▸ getElem_mem _))
    have hmul := Nat.mul_le_mul_right capacity (Nat.succ_le_of_lt hlt)
    simp only [mem_range'_1] at ho
    rw [Nat.succ_mul] at hmul
    omega

/-- The first node group changes neither the rows nor the room. -/
lemma appendedTo_first (hc : ∀ g ∈ c, g.Counted capacity) :
    AppendedTo capacity c 0 (if c.isEmpty then [new] else c) := by
  split_ifs with hnil
  · rw [isEmpty_iff.mp hnil]
    exact ⟨rfl, by simp [endOffset], by simp [HasRoom], by simp [counted_new]⟩
  · exact .zero hc

/-- If an append returns, the last node group had room. -/
lemma hasRoom_of_append (hcapacity : 0 < capacity) (hc : ∀ g ∈ c, g.Counted capacity)
    (hrun : c.append capacity chunkCap transactionID fuel batches = some c') :
    HasRoom capacity c batches.flatten.length := by
  have hfirst := appendedTo_first hc
  have hroom := ((appendBatches_some hcapacity hfirst.counted hrun).hasRoom 0).mp fun g _ =>
    .inr (.inr (Nat.zero_le _))
  have hall := (hfirst.hasRoom _).mp hroom
  rwa [Nat.zero_add] at hall

/-- The last node group was reached by a run of its writers, and its chunks hold no value behind the
rows of their group. -/
def LastTrimmed (chunkCap : ℕ) (c : NodeGroupCollection cap m V) : Prop :=
  ∀ g ∈ c.getLast?, g.group.nodeGroup.TrimmedChunks ∧ ∃ p as,
    (∀ a ∈ as, a.Valid) ∧
    Fold.Guarded (SharedNodeGroup.step chunkCap) SharedNodeGroup.Allowed
      (.init p : SharedNodeGroup cap m V) as ∧
    (SharedNodeGroup.init p).run chunkCap as = some g.group

lemma LastTrimmed.settled (hcap : 0 < cap) (hchunk : 0 < chunkCap) (h : c.LastTrimmed chunkCap) :
    ∀ g ∈ c.getLast?, g.Settled chunkCap := by
  intro g hg
  obtain ⟨htrim, p, as, hvalid, hguard, hrun⟩ := h g hg
  obtain ⟨pre, hinit⟩ := SharedNodeGroup.init_sharedRep (m := m) (V := V) chunkCap p
  obtain ⟨s, rows, hrun', hrep, -⟩ := SharedNodeGroup.run_block hinit hcap hchunk hvalid hguard
    (by rintro a - ⟨id, hx, -⟩; cases hx)
    (show SharedNodeGroup.Block 0 (.committed 0) [] [] from nofun)
  obtain rfl := some.inj (hrun'.symm.trans hrun)
  obtain ⟨mems, rss, hnode, -⟩ := hrep.node
  have hreps := SharedNodeGroup.memsRep_of_trimmed hnode.mems.reps fun g' hg' =>
    htrim g' (by rw [hnode.groups]; exact mem_append_right _ hg')
  exact ⟨_, _, pre, mems, rss, hnode.groups, hnode.persistent, hnode.mems.congr hreps rfl,
    hnode.numRows, hnode.nonempty⟩

/-- A committed row, and a batch that fills the node group of four rows and is rolled back. -/
def rolledBack : Option (NodeGroupCollection 2048 1 ℕ) := do
  let c ← append 4 4 startTransactionID 1 [] [[fun _ => 0]]
  let c ← c.commit 4 startTransactionID 1
  let c ← c.append 4 4 (startTransactionID + 1) 1 [[fun _ => 1, fun _ => 2, fun _ => 3]]
  c.rollback 4 (startTransactionID + 1)

end NodeGroupCollection

end Ladybug
