import Ladybug.Index.Equiv.InMemSplit
import Mathlib.Algebra.BigOperators.Group.Finset.Basic
import Mathlib.Tactic.Abel

/-!
# Growing the in-memory hash index

`Rep cap hash idx chains ents free` is the invariant of the index: the slots hang together, the
chain of primary slot `i` stores the entries `ents i` without a gap, and every entry is in the chain
that its hash addresses.

* `splitSlot_spec`: a split adds a primary slot and keeps the entries;
* `reserve_spec`: `reserve` keeps the entries.
-/

namespace Ladybug

open Chain HashIndexUtils List Function

namespace InMemHashIndex

variable {K : Type}

/-- All entries of the first `n` chains. -/
def content (ents : ℕ → List (K × ℕ)) (n : ℕ) : Multiset (K × ℕ) :=
  ∑ i ∈ Finset.range n, (ents i : Multiset (K × ℕ))

variable {i n : ℕ} {header : HashIndexHeader} {ents ents' : ℕ → List (K × ℕ)} {e : K × ℕ}

lemma mem_content : e ∈ content ents n ↔ ∃ i < n, e ∈ ents i := by
  rw [content, Multiset.mem_sum]
  simp

lemma content_congr (h : ∀ i < n, ents' i = ents i) : content ents' n = content ents n :=
  Finset.sum_congr rfl fun i hi => by rw [h i (Finset.mem_range.mp hi)]

lemma content_append (A B : ℕ → List (K × ℕ)) (n : ℕ) :
    content (fun i => A i ++ B i) n = content A n + content B n := by
  simp only [content, ← Multiset.coe_add]
  exact Finset.sum_add_distrib

/-- The content of one chain and of the others. -/
lemma content_eq_add (hi : i < n) :
    content ents n = (ents i : Multiset (K × ℕ)) +
      ∑ j ∈ (Finset.range n).erase i, (ents j : Multiset (K × ℕ)) :=
  (Finset.add_sum_erase _ _ (Finset.mem_range.mpr hi)).symm

lemma content_update (hi : i < n) (es : List (K × ℕ)) :
    content (Function.update ents i es) n = (es : Multiset (K × ℕ)) +
      ∑ j ∈ (Finset.range n).erase i, (ents j : Multiset (K × ℕ)) := by
  rw [content_eq_add hi, update_self]
  congr 1
  refine Finset.sum_congr rfl fun j hj => ?_
  rw [update_of_ne (Finset.ne_of_mem_erase hj)]

structure Rep (cap : ℕ) (hash : K → ℕ) (idx : InMemHashIndex K) (chains : ℕ → List ℕ)
    (ents : ℕ → List (K × ℕ)) (free : List ℕ) : Prop where
  heap : Heap cap idx chains free
  header : HeaderRep idx.indexHeader idx.pSlots.length
  holds : ∀ i < idx.pSlots.length, Holds cap hash idx (chainAddrs i (chains i)) (ents i)
  placed : ∀ i < idx.pSlots.length, ∀ e ∈ ents i,
    getPrimarySlotIdForHash idx.indexHeader (hash e.1) = i
  counted : idx.indexHeader.numEntries = 0 → ∀ i < idx.pSlots.length, ents i = []
  size : idx.pSlots.length < 2 ^ 31

/-- The index stores the entries `M`. -/
def Entries (cap : ℕ) (hash : K → ℕ) (idx : InMemHashIndex K) (M : Multiset (K × ℕ)) : Prop :=
  ∃ chains ents free, Rep cap hash idx chains ents free ∧ content ents idx.pSlots.length = M

/-- An operation counts `n` new entries, and keeps the counter of the free slots in step. -/
structure Tallied (idx idx' : InMemHashIndex K) (n : ℕ) : Prop where
  numEntries : idx'.indexHeader.numEntries = idx.indexHeader.numEntries + n
  stale : ∀ k, idx.Stale k → idx'.Stale k

lemma Tallied.refl (idx : InMemHashIndex K) : Tallied idx idx 0 := ⟨rfl, fun _ => id⟩

lemma Tallied.trans {idx idx1 idx' : InMemHashIndex K} {m n : ℕ} (h : Tallied idx idx1 m)
    (h' : Tallied idx1 idx' n) : Tallied idx idx' (m + n) :=
  ⟨by rw [h'.numEntries, h.numEntries, add_assoc], fun k hk => h'.stale k (h.stale k hk)⟩

/-! ### New primary slots -/

namespace Heap

variable {cap : ℕ} {idx : InMemHashIndex K} {chains : ℕ → List ℕ} {free : List ℕ}

lemma setHeader (h : Heap cap idx chains free)
    (hfree : header.firstFreeOverflowSlotId = idx.indexHeader.firstFreeOverflowSlotId) :
    Heap cap { idx with indexHeader := header } chains free := by
  refine ⟨h.width, h.links, h.chain_lt, h.chain_nodup, h.disjoint, ?_, h.free_lt, h.free_nodup,
    h.free_disjoint, h.free_empty, h.free_count⟩
  rw [hfree]
  exact h.free_links

variable [Inhabited K] {a : SlotInfo}

lemma inRange_allocatePSlots (ha : idx.InRange a) : (idx.allocatePSlots cap n).InRange a := by
  obtain ⟨id, ty⟩ := a
  cases ty with
  | PRIMARY =>
    rw [inRange_prim] at ha ⊢
    simp only [InMemHashIndex.allocatePSlots, length_append]
    omega
  | OVF => exact ha

/-- Allocation keeps the slots there are. -/
lemma getSlot_allocatePSlots (ha : idx.InRange a) :
    (idx.allocatePSlots cap n).getSlot a = idx.getSlot a := by
  obtain ⟨id, ty⟩ := a
  cases ty with
  | PRIMARY =>
    have hlt : id < idx.pSlots.length := ha
    simp [getSlot, InMemHashIndex.allocatePSlots, getElem?_append_left hlt]
  | OVF => rfl

/-- New slots are empty. -/
lemma getSlot_allocatePSlots_new (hge : idx.pSlots.length ≤ i) (hlt : i < idx.pSlots.length + n) :
    (idx.allocatePSlots cap n).getSlot (.prim i) = Slot.empty cap := by
  have hsub : i - idx.pSlots.length < n := by omega
  simp [getSlot, InMemHashIndex.allocatePSlots, getElem?_append_right hge, hsub]

/-- The chains after new primary slots. -/
def withNew (chains : ℕ → List ℕ) (n : ℕ) : ℕ → List ℕ := fun i => if i < n then chains i else []

lemma allocatePSlots (h : Heap cap idx chains free) (n : ℕ) :
    Heap cap (idx.allocatePSlots cap n) (withNew chains idx.pSlots.length) free := by
  have hlen : (idx.allocatePSlots cap n).pSlots.length = idx.pSlots.length + n := by
    simp [InMemHashIndex.allocatePSlots]
  refine h.grow (fun a => inRange_allocatePSlots) (fun a => getSlot_allocatePSlots)
    (fun a ha hr => ?_) rfl rfl fun _ _ => rfl
  obtain ⟨id, ty⟩ := a
  cases ty with
  | PRIMARY =>
    rw [inRange_prim] at ha hr
    exact getSlot_allocatePSlots_new (by omega) (by omega)
  | OVF => exact absurd ha hr

end Heap

variable {cap : ℕ} {hash : K → ℕ} {idx : InMemHashIndex K} {chains : ℕ → List ℕ} {free : List ℕ}
  {header' : HashIndexHeader}

lemma Holds.of_empty [Inhabited K] {a : SlotInfo} (h : idx.getSlot a = Slot.empty cap) :
    Holds cap hash idx [a] [] := by
  refine ⟨idx.cellsAt a, by simp, ?_, .inl (by simp)⟩
  intro c hc
  rw [cellsAt, h] at hc
  rw [eq_of_mem_replicate hc]

/-! ### Splitting -/

/-- The entries of the chains after slot `src` was split, with `dst` the new slot. -/
def splitEnts (hash : K → ℕ) (header : HashIndexHeader) (dst : ℕ) (ents : ℕ → List (K × ℕ)) :
    ℕ → List (K × ℕ) := fun i =>
  if i = dst then (ents header.nextSplitSlotId).filter (moves hash header)
  else if i = header.nextSplitSlotId then
    (ents header.nextSplitSlotId).filter fun e => !moves hash header e
  else ents i

/-- A split keeps the content. -/
lemma content_splitEnts (hlt : header.nextSplitSlotId < n) :
    content (splitEnts hash header n ents) (n + 1) = content ents n := by
  have hrest : ∀ j ∈ (Finset.range n).erase header.nextSplitSlotId,
      (splitEnts hash header n ents j : Multiset (K × ℕ)) = ents j := by
    intro j hj
    have hjn : j ≠ n := (Finset.mem_range.mp (Finset.mem_of_mem_erase hj)).ne
    rw [splitEnts, if_neg hjn, if_neg (Finset.ne_of_mem_erase hj)]
  have hsrc : splitEnts hash header n ents header.nextSplitSlotId =
      (ents header.nextSplitSlotId).filter fun e => !moves hash header e := by
    rw [splitEnts, if_neg hlt.ne, if_pos rfl]
  have hdst : splitEnts hash header n ents n =
      (ents header.nextSplitSlotId).filter (moves hash header) := if_pos rfl
  have hparts : ((ents header.nextSplitSlotId).filter (moves hash header) : Multiset (K × ℕ)) +
      ((ents header.nextSplitSlotId).filter fun e => !moves hash header e : Multiset (K × ℕ)) =
      ents header.nextSplitSlotId := by
    rw [Multiset.coe_add]
    exact Multiset.coe_eq_coe.mpr (filter_append_perm _ _)
  rw [content, Finset.sum_range_succ, hdst, ← content, content_eq_add hlt, content_eq_add hlt,
    Finset.sum_congr rfl hrest, hsrc, ← hparts]
  abel

/-- After the split every entry is in the chain that its hash addresses. -/
lemma splitEnts_placed (hr : HeaderRep header n) (hr' : HeaderRep header' (n + 1))
    (h : ∀ i < n, ∀ e ∈ ents i, getPrimarySlotIdForHash header (hash e.1) = i) (hi : i < n + 1)
    (he : e ∈ splitEnts hash header n ents i) :
    getPrimarySlotIdForHash header' (hash e.1) = i := by
  have hsrc := h _ hr.nextSplit_lt_size
  rw [hr.increment_rep.primarySlot_congr hr']
  rw [splitEnts] at he
  split_ifs at he with hin his
  · obtain ⟨hmem, hmv⟩ := mem_filter.mp he
    rw [hr.increment_of_eq (hsrc e hmem), hin]
    refine (hr.higher_cases (hsrc e hmem)).resolve_left fun hstays => ?_
    simp [moves, hstays] at hmv
  · obtain ⟨hmem, hmv⟩ := mem_filter.mp he
    rw [hr.increment_of_eq (hsrc e hmem), his]
    simpa [moves] using hmv
  · have hplaced := h i (by omega) e he
    rw [hr.increment_of_ne (by rwa [hplaced]), hplaced]

/-- The entries `ents` of `n` chains, moved to `n'` chains: none is lost, and those of one hash
keep their order. -/
structure Regrouped (hash : K → ℕ) (header header' : HashIndexHeader) (n n' : ℕ)
    (ents ents' : ℕ → List (K × ℕ)) : Prop where
  content_eq : content ents' n' = content ents n
  order : ∀ x, (ents' (getPrimarySlotIdForHash header' x)).filter (fun e => hash e.1 = x) =
    (ents (getPrimarySlotIdForHash header x)).filter fun e => hash e.1 = x

lemma Regrouped.refl (hash : K → ℕ) (header : HashIndexHeader) (n : ℕ)
    (ents : ℕ → List (K × ℕ)) : Regrouped hash header header n n ents ents := ⟨rfl, fun _ => rfl⟩

lemma Regrouped.trans {header'' : HashIndexHeader} {n' n'' : ℕ}
    {ents'' : ℕ → List (K × ℕ)} (h : Regrouped hash header header' n n' ents ents')
    (h' : Regrouped hash header' header'' n' n'' ents' ents'') :
    Regrouped hash header header'' n n'' ents ents'' :=
  ⟨h'.content_eq.trans h.content_eq, fun x => (h'.order x).trans (h.order x)⟩

/-- A split regroups the entries by their hash. -/
lemma splitEnts_regrouped (hr : HeaderRep header n)
    (hr' : HeaderRep header' (n + 1)) (A : ℕ → List (K × ℕ)) :
    Regrouped hash header header' n (n + 1) A (splitEnts hash header n A) := by
  have hlt := hr.nextSplit_lt_size
  refine ⟨content_splitEnts hlt, fun x => ?_⟩
  rw [hr.increment_rep.primarySlot_congr hr']
  by_cases hsrc : getPrimarySlotIdForHash header x = header.nextSplitSlotId
  · -- the entries of a hash go the same way
    rw [hr.increment_of_eq hsrc, hsrc]
    rcases hr.higher_cases hsrc with hstay | hmove
    · rw [hstay, splitEnts, if_neg hlt.ne, if_pos rfl, filter_filter]
      refine filter_congr fun e _ => ?_
      by_cases he : hash e.1 = x
      · simp [moves, he, hstay]
      · simp [he]
    · rw [hmove, splitEnts, if_pos rfl, filter_filter]
      refine filter_congr fun e _ => ?_
      by_cases he : hash e.1 = x
      · simp [moves, he, hmove, hlt.ne']
      · simp [he]
  · have hne : getPrimarySlotIdForHash header x ≠ n := (hr.getPrimarySlotIdForHash_lt x).ne
    rw [hr.increment_of_ne hsrc, splitEnts, if_neg hne, if_neg hsrc]

lemma splitEnts_append (hash : K → ℕ) (header : HashIndexHeader) (n : ℕ)
    (A B : ℕ → List (K × ℕ)) :
    splitEnts hash header n (fun i => A i ++ B i) =
      fun i => splitEnts hash header n A i ++ splitEnts hash header n B i := by
  funext i
  simp only [splitEnts]
  split_ifs <;> simp

section Split

variable [Inhabited K] {tail : List (SlotCell K)} {base : InMemHashIndex K}

/-- The state before the loop of the split. -/
lemma splitting_init (h : Rep cap hash idx chains ents free) {free' : List ℕ}
    (hheap : Heap cap base (Heap.withNew chains idx.pSlots.length) free')
    (hget : ∀ a, (idx.allocatePSlots cap 1).InRange a →
      base.getSlot a = (idx.allocatePSlots cap 1).getSlot a)
    (hflat : flat idx.cellsAt (chainAddrs idx.indexHeader.nextSplitSlotId
      (chains idx.indexHeader.nextSplitSlotId)) =
        (ents idx.indexHeader.nextSplitSlotId).map (cellOf hash) ++ tail) (hcap : 0 < cap) :
    Splitting cap hash base (Heap.withNew chains idx.pSlots.length)
      idx.indexHeader.nextSplitSlotId idx.pSlots.length (ents idx.indexHeader.nextSplitSlotId)
      tail 0
      { index := base, originalSlotForInsert := .prim idx.indexHeader.nextSplitSlotId
        entryPosToInsert := 0, newSlot := .prim idx.pSlots.length, newSlotPos := 0
        gaps := false } := by
  have hlt := h.header.nextSplit_lt_size
  have hnew : Heap.withNew chains idx.pSlots.length idx.pSlots.length = [] := if_neg (lt_irrefl _)
  have hold : Heap.withNew chains idx.pSlots.length idx.indexHeader.nextSplitSlotId =
      chains idx.indexHeader.nextSplitSlotId := if_pos hlt
  have hself : Function.update (Heap.withNew chains idx.pSlots.length) idx.pSlots.length [] =
      Heap.withNew chains idx.pSlots.length := by
    have hself := update_eq_self idx.pSlots.length (Heap.withNew chains idx.pSlots.length)
    rwa [hnew] at hself
  refine ⟨[], free', [], [], [], base.cellsAt (.prim idx.pSlots.length), ?_, fun _ => rfl⟩
  refine ⟨?_, Heap.SameShape.refl base, fun _ _ _ _ _ _ => rfl, by simp, by simp, ?_, by simp, rfl,
    by simp [chainAddrs], ?_, by simp [chainAddrs], by simp,
      ⟨0, by simp [chainAddrs], hcap, by simp, .inl rfl⟩, by simp⟩
  -- the new slot has an empty chain
  · rw [hself]
    exact hheap
  -- the chain to be split is untouched
  · rw [hold]
    rw [map_nil, nil_append, nil_append, drop_zero, ← hflat]
    refine flat_congr fun a ha => ?_
    have hr := h.heap.inRange hlt a ha
    rw [cellsAt, hget a (Heap.inRange_allocatePSlots hr), Heap.getSlot_allocatePSlots hr, cellsAt]
  · intro c hc
    have hr' : (idx.allocatePSlots cap 1).InRange (.prim idx.pSlots.length) := by
      simp [allocatePSlots]
    rw [cellsAt, hget _ hr', Heap.getSlot_allocatePSlots_new le_rfl (by omega)] at hc
    rw [eq_of_mem_replicate hc]

omit [Inhabited K] in
/-- What the loops of `splitSlot` leave, and `reclaimOverflowSlots` after them. -/
lemma splitting_end (hcap : 0 < cap) {src dst : ℕ} {es : List (K × ℕ)} {s : SplitState K}
    (hsrc : src < base.pSlots.length) (hdst : dst < base.pSlots.length) (hne : src ≠ dst)
    (htail : ∀ c ∈ tail, c.valid = false)
    (h : Splitting cap hash base chains src dst es tail es.length s) :
    ∃ idx' chains' free', s.index.reclaimOverflowSlots s.originalSlotForInsert = some idx' ∧
      Heap cap idx' chains' free' ∧ Heap.SameShape base idx' ∧
      Holds cap hash idx' (chainAddrs src (chains' src))
        (es.filter fun e => !moves hash base.indexHeader e) ∧
      Holds cap hash idx' (chainAddrs dst (chains' dst)) (es.filter (moves hash base.indexHeader)) ∧
      ∀ i < base.pSlots.length, i ≠ src → i ≠ dst → chains' i = chains i ∧
        ∀ a ∈ chainAddrs i (chains i), idx'.cellsAt a = base.cellsAt a := by
  obtain ⟨newChain, free, stay, moved, gap, newTail, hinv, hcompact⟩ := h
  have hps : s.index.pSlots.length = base.pSlots.length := hinv.shape.pSlots
  have hstay := hinv.stay_eq
  have hmoved := hinv.moved_eq
  rw [take_length] at hstay hmoved
  have hflat : flat s.index.cellsAt (chainAddrs src (chains src)) =
      stay.map (cellOf hash) ++ (gap ++ tail) := by
    rw [hinv.src_flat, drop_length]
    rfl
  obtain ⟨t, ht, -, -, hcases⟩ := hinv.insert
  obtain ⟨idx', kept, free', hrun, hheap, hshape, hcells, hholds⟩ :=
    hinv.heap.reclaim_holds hcap (hps ▸ hsrc) (update_of_ne hne _ _) hflat
      (forall_mem_append.mpr ⟨hinv.gap_invalid, htail⟩) ht hcases
  refine ⟨idx', _, free', hrun, hheap, hinv.shape.trans hshape, ?_, ?_, ?_⟩
  · rw [update_self, ← hstay]
    exact hholds
  · rw [update_of_ne hne.symm, update_self, ← hmoved]
    refine ⟨newTail, by rw [hcells]; exact hinv.dst_flat, hinv.newTail_invalid, ?_⟩
    -- the last slot of the new chain has an entry, or the chain is its primary slot
    obtain ⟨-, hlen⟩ := hinv.newSlotPos_le hdst
    have hpos := hinv.newSlotPos
    by_cases hzero : s.newSlotPos = 0
    · left
      simp [hcompact hzero]
    · right
      omega
  · intro i hi his hid
    rw [update_of_ne his, update_of_ne hid, hcells]
    exact ⟨rfl, hinv.others i hi his hid⟩

/-- **Splitting a slot** keeps the entries. -/
lemma splitSlot_spec (hcap : 0 < cap) (h : Rep cap hash idx chains ents free)
    (hsize : idx.pSlots.length + 1 < 2 ^ 31) :
    ∃ idx' chains' free', idx.splitSlot cap hash = some idx' ∧
      Rep cap hash idx' chains' (splitEnts hash idx.indexHeader idx.pSlots.length ents) free' ∧
      idx'.pSlots.length = idx.pSlots.length + 1 ∧ Tallied idx idx' 0 := by
  set n := idx.pSlots.length with hn
  set src := idx.indexHeader.nextSplitSlotId with hsrc_def
  have hlt : src < n := h.header.nextSplit_lt_size
  obtain ⟨tail, hflat, htail, -⟩ := h.holds src hlt
  -- the new slot, and the reserved overflow slots
  set idx1 := idx.allocatePSlots cap 1 with hidx1
  have hn1 : idx1.pSlots.length = n + 1 := by simp [hidx1, allocatePSlots, hn]
  have hheap1 : Heap cap idx1 (Heap.withNew chains n) free := h.heap.allocatePSlots 1
  have hold : Heap.withNew chains n src = chains src := if_pos hlt
  have hcount : idx1.countSlots idx1.maxChain (.prim src) = some ((chains src).length + 1) := by
    have hlinks := hheap1.links src (by omega)
    have hle := hheap1.length_le (i := src) (by omega)
    rw [hold] at hlinks hle
    simpa using countSlots_spec hlinks (by simpa [chainAddrs, Nat.succ_le_iff] using hle)
  obtain ⟨free2, hheap2, hshape2, hget2⟩ := hheap1.reserveOverflowSlots_spec
    ((chains src).length + 1)
  set base := idx1.reserveOverflowSlots cap ((chains src).length + 1)
  have hn2 : base.pSlots.length = n + 1 := hshape2.pSlots.trans hn1
  have hheader2 : base.indexHeader = { idx.indexHeader with
      firstFreeOverflowSlotId := base.indexHeader.firstFreeOverflowSlotId } := hshape2.header
  -- the loops
  have hinit := splitting_init h hheap2 hget2 hflat hcap
  have hchain_len : (ents src).length + tail.length =
      (chainAddrs src (Heap.withNew chains n src)).length * cap := by
    rw [hold, chainAddrs_length, Nat.succ_mul]
    exact h.heap.entries_length hlt rfl hflat
  have hsrc2 : src < base.pSlots.length := by omega
  have hdst2 : n < base.pSlots.length := by omega
  nth_rewrite 1 [← Nat.zero_mul cap] at hinit
  obtain ⟨s, hrun, hs⟩ := splitChain_spec hcap hsrc2 hdst2 hlt.ne rfl htail hchain_len
    base.maxChain (by simpa using hheap2.length_le hsrc2) (by omega) hinit
  obtain ⟨idx3, chains', free', hreclaim, hheap3, hshape3, hsrc_holds, hdst_holds, hothers⟩ :=
    splitting_end hcap hsrc2 hdst2 hlt.ne htail hs
  have hn3 : idx3.pSlots.length = n + 1 := hshape3.pSlots.trans hn2
  have hheader3 : idx3.indexHeader = { idx.indexHeader with
      firstFreeOverflowSlotId := idx3.indexHeader.firstFreeOverflowSlotId } := by
    rw [hshape3.header, hheader2]
  have hmoves : moves hash base.indexHeader = moves hash idx.indexHeader := by
    funext e
    rw [hheader2]
    rfl
  rw [hmoves] at hsrc_holds hdst_holds
  have hrep : HeaderRep idx3.indexHeader.incrementNextSplitSlotId (n + 1) := by
    have hr := h.header
    refine HeaderRep.increment_rep ?_
    rw [hheader3]
    exact ⟨hr.levelHashMask, hr.higherLevelHashMask, hr.nextSplit_lt, hr.size⟩
  have hnum : idx3.indexHeader.incrementNextSplitSlotId.numEntries =
      idx.indexHeader.numEntries := by
    rw [HashIndexHeader.numEntries_incrementNextSplitSlotId, hheader3]
  have hheap4 : Heap cap { idx3 with indexHeader := idx3.indexHeader.incrementNextSplitSlotId }
      chains' free' := hheap3.setHeader (by
    unfold HashIndexHeader.incrementNextSplitSlotId
    split_ifs <;> rfl)
  refine ⟨_, chains', free', ?_, ⟨hheap4, ?_, ?_, ?_, ?_, ?_⟩, hn3, hnum, fun k hk =>
    hheap3.stale hheap4 rfl k (hshape3.stale k (hshape2.stale k (h.heap.stale hheap1 rfl k hk)))⟩
  · have hlast : base.pSlots.length - 1 = n := by omega
    rw [splitSlot]
    show (do
      let count ← idx1.countSlots idx1.maxChain (.prim src)
      _) = _
    rw [hcount]
    show (do
      let s ← splitChain cap hash base.maxChain (.prim src)
        { index := base, originalSlotForInsert := .prim src, entryPosToInsert := 0,
          newSlot := .prim (base.pSlots.length - 1), newSlotPos := 0, gaps := false }
      _) = _
    rw [hlast, hrun]
    show (do
      let idx ← s.index.reclaimOverflowSlots s.originalSlotForInsert
      _) = _
    rw [hreclaim]
    rfl
  · rw [hn3]
    exact hrep
  · intro i hi
    show Holds cap hash idx3 (chainAddrs i (chains' i)) (splitEnts hash idx.indexHeader n ents i)
    by_cases hin : i = n
    · subst hin
      rw [splitEnts, if_pos rfl]
      exact hdst_holds
    by_cases his : i = src
    · subst his
      rw [splitEnts, if_neg hin, if_pos rfl]
      exact hsrc_holds
    -- another chain is as it was
    have hi' : i < n := by
      have : i < idx3.pSlots.length := hi
      omega
    obtain ⟨hch, hcells⟩ := hothers i (by omega) his hin
    have hold_i : Heap.withNew chains n i = chains i := if_pos hi'
    rw [hold_i] at hch hcells
    rw [hch, splitEnts, if_neg hin, if_neg his]
    refine (h.holds i hi').congr fun a ha => ?_
    have hr := h.heap.inRange hi' a ha
    have hr1 := hheap1.inRange (i := i) (by omega) a (by rw [hold_i]; exact ha)
    rw [hcells a ha, cellsAt, hget2 a hr1, Heap.getSlot_allocatePSlots hr, cellsAt]
  · intro i hi e he
    exact splitEnts_placed h.header hrep h.placed (hn3 ▸ hi) he
  · intro hzero i hi
    have hempty := h.counted (hnum.symm.trans hzero)
    have hi' : i < n + 1 := hn3 ▸ hi
    simp only [splitEnts, ← hsrc_def, hempty src hlt, filter_nil]
    split_ifs
    · rfl
    · rfl
    · exact hempty i (by omega)
  · show idx3.pSlots.length < 2 ^ 31
    omega

/-- The loop of `reserve` reaches the number of slots and regroups the entries. -/
lemma splitUntil_split (hcap : 0 < cap) {numRequiredSlots : ℕ}
    (hrequired : numRequiredSlots < 2 ^ 31) : ∀ (fuel : ℕ) (idx : InMemHashIndex K)
    (chains : ℕ → List ℕ) (A B : ℕ → List (K × ℕ)) (free : List ℕ),
    Rep cap hash idx chains (fun i => A i ++ B i) free →
    numRequiredSlots ≤ idx.pSlots.length + fuel →
    ∃ idx' chains' A' B' free', splitUntil cap hash numRequiredSlots fuel idx = some idx' ∧
      Rep cap hash idx' chains' (fun i => A' i ++ B' i) free' ∧ Tallied idx idx' 0 ∧
      Regrouped hash idx.indexHeader idx'.indexHeader idx.pSlots.length idx'.pSlots.length A A' ∧
      Regrouped hash idx.indexHeader idx'.indexHeader idx.pSlots.length idx'.pSlots.length
        B B' := by
  intro fuel
  induction fuel with
  | zero =>
    intro idx chains A B free h hle
    exact ⟨idx, chains, A, B, free, if_neg (by omega), h, .refl _, .refl .., .refl ..⟩
  | succ fuel ih =>
    intro idx chains A B free h hle
    rw [splitUntil]
    by_cases hlt : idx.pSlots.length < numRequiredSlots
    · obtain ⟨idx1, chains1, free1, hrun1, h1, hlen1, hnum1⟩ := splitSlot_spec hcap h (by omega)
      rw [splitEnts_append] at h1
      obtain ⟨idx', chains', A', B', free', hrun, h', hnum, hA, hB⟩ :=
        ih idx1 chains1 _ _ free1 h1 (by omega)
      have hregroup : ∀ C, Regrouped hash _ _ _ _ C _ :=
        splitEnts_regrouped h.header (hlen1 ▸ h1.header)
      rw [← hlen1] at hregroup
      refine ⟨idx', chains', A', B', free', ?_, h', hnum1.trans hnum, (hregroup A).trans hA,
        (hregroup B).trans hB⟩
      rw [if_pos hlt, hrun1]
      exact hrun
    · exact ⟨idx, chains, A, B, free, if_neg hlt, h, .refl _, .refl .., .refl ..⟩

end Split

/-! ### Allocating slots for an empty index -/

/-- The masks of a header fit its level. -/
def MasksRep (h : HashIndexHeader) : Prop :=
  h.levelHashMask = 2 ^ h.currentLevel - 1 ∧ h.higherLevelHashMask = 2 ^ (h.currentLevel + 1) - 1

/-- The level is raised until the slots are addressed. -/
lemma raiseLevel_spec (n : ℕ) : ∀ (fuel : ℕ) (header : HashIndexHeader), MasksRep header →
    2 ^ header.currentLevel ≤ n → n < 2 ^ (header.currentLevel + fuel + 1) →
    MasksRep (raiseLevel n fuel header) ∧ 2 ^ (raiseLevel n fuel header).currentLevel ≤ n ∧
      n < 2 ^ ((raiseLevel n fuel header).currentLevel + 1) ∧
      (raiseLevel n fuel header).numEntries = header.numEntries ∧
      (raiseLevel n fuel header).firstFreeOverflowSlotId = header.firstFreeOverflowSlotId := by
  intro fuel
  induction fuel with
  | zero => exact fun header hm hle hlt => ⟨hm, hle, hlt, rfl, rfl⟩
  | succ fuel ih =>
    intro header hm hle hlt
    rw [raiseLevel]
    split_ifs with hraise
    · refine ih header.incrementLevel ⟨rfl, rfl⟩ ?_ ?_
      · exact hraise
      · show n < 2 ^ (header.currentLevel + 1 + fuel + 1)
        rwa [Nat.add_right_comm header.currentLevel 1 fuel]
    · refine ⟨hm, hle, ?_, rfl, rfl⟩
      rw [Nat.pow_succ]
      omega

section Allocate

variable [Inhabited K]

/-- Slots are allocated in an empty index. -/
lemma allocateSlots_spec (newNumSlots : ℕ) (h : Heap cap idx chains free)
    (hholds : ∀ i < idx.pSlots.length, Holds cap hash idx (chainAddrs i (chains i)) [])
    (hmasks : MasksRep idx.indexHeader) (hlevel : 2 ^ idx.indexHeader.currentLevel ≤ newNumSlots)
    (hlt : idx.pSlots.length < newNumSlots) (hsize : newNumSlots < 2 ^ 31) :
    ∃ chains', Rep cap hash (idx.allocateSlots cap newNumSlots) chains' (fun _ => []) free ∧
      Tallied idx (idx.allocateSlots cap newNumSlots) 0 := by
  obtain ⟨hm, hle, hlt', hnum, hfree⟩ := raiseLevel_spec newNumSlots newNumSlots idx.indexHeader
    hmasks hlevel (lt_of_lt_of_le Nat.lt_two_pow_self (Nat.pow_le_pow_right (by omega) (by omega)))
  set header := raiseLevel newNumSlots newNumSlots idx.indexHeader
  set idx1 := idx.allocatePSlots cap (newNumSlots - idx.pSlots.length) with hidx1
  have hlen : idx1.pSlots.length = newNumSlots := by
    simp [hidx1, allocatePSlots]
    omega
  have hrun : idx.allocateSlots cap newNumSlots = { idx1 with indexHeader :=
      { header with nextSplitSlotId := newNumSlots - 2 ^ header.currentLevel } } := by
    rw [allocateSlots, if_pos hlt]
    show ({ idx1 with indexHeader := if newNumSlots ≥ 2 ^ header.currentLevel then _ else _ } :
      InMemHashIndex K) = _
    rw [if_pos hle]
    rfl
  rw [hrun]
  have hheap : Heap cap { idx1 with indexHeader :=
      { header with nextSplitSlotId := newNumSlots - 2 ^ header.currentLevel } } _ free :=
    (h.allocatePSlots _).setHeader hfree
  refine ⟨_, ⟨hheap, ?_, ?_, ?_, ?_, ?_⟩, hnum, h.stale hheap rfl⟩
  · rw [Nat.pow_succ] at hlt'
    refine ⟨hm.1, hm.2, ?_, ?_⟩
    · show newNumSlots - 2 ^ header.currentLevel < 2 ^ header.currentLevel
      omega
    · show idx1.pSlots.length = 2 ^ header.currentLevel + (newNumSlots - 2 ^ header.currentLevel)
      omega
  · intro i hi
    have hi' : i < newNumSlots := hlen ▸ hi
    show Holds cap hash idx1 (chainAddrs i (Heap.withNew chains idx.pSlots.length i)) []
    -- an old slot keeps its chain, a new one is empty
    by_cases hold : i < idx.pSlots.length
    · rw [Heap.withNew, if_pos hold]
      refine (hholds i hold).congr fun a ha => ?_
      rw [cellsAt, Heap.getSlot_allocatePSlots (h.inRange hold a ha), cellsAt]
    · rw [Heap.withNew, if_neg hold]
      exact Holds.of_empty (Heap.getSlot_allocatePSlots_new (by omega) (by omega))
  · intro i _ e he
    cases he
  · intro _ i _
    rfl
  · show idx1.pSlots.length < 2 ^ 31
    omega

lemma allocateSlots_nil (cap : ℕ) (hash : K → ℕ) (numFreeSlots : ℕ) : ∃ chains', Rep cap hash
    (allocateSlots cap (⟨[], [], {}, numFreeSlots⟩ : InMemHashIndex K) slotsPerPage) chains'
      (fun _ => []) [] := by
  have hheap : Heap cap (⟨[], [], {}, numFreeSlots⟩ : InMemHashIndex K) (fun _ => []) [] := by
    refine ⟨?_, by simp, by simp, by simp, by simp, rfl, by simp, by simp, by simp, by simp,
      by simp⟩
    intro a ha
    obtain ⟨id, ty⟩ := a
    cases ty <;> exact absurd ha (Nat.not_lt_zero id)
  have hholds : ∀ i < 0, Holds cap hash (⟨[], [], {}, numFreeSlots⟩ : InMemHashIndex K)
      (chainAddrs i []) [] := by
    intro i hi
    exact absurd hi (Nat.not_lt_zero i)
  obtain ⟨chains', hrep, -⟩ := allocateSlots_spec slotsPerPage hheap hholds ⟨rfl, rfl⟩
    (show 2 ^ 1 ≤ slotsPerPage by decide) (show 0 < slotsPerPage by decide) (by decide)
  exact ⟨chains', hrep⟩

end Allocate

/-! ### `reserve` and `clear` -/

section Reserve

variable [Inhabited K]

/-- Reserving regroups two layers alike. -/
lemma reserve_split (hcap : 4 ≤ cap) {A B : ℕ → List (K × ℕ)}
    (h : Rep cap hash idx chains (fun i => A i ++ B i) free) (numEntries : ℕ) :
    ∃ idx' chains' A' B' free', idx.reserve cap hash numEntries = some idx' ∧
      Rep cap hash idx' chains' (fun i => A' i ++ B' i) free' ∧ Tallied idx idx' 0 ∧
      Regrouped hash idx.indexHeader idx'.indexHeader idx.pSlots.length idx'.pSlots.length A A' ∧
      Regrouped hash idx.indexHeader idx'.indexHeader idx.pSlots.length idx'.pSlots.length
        B B' := by
  rw [reserve]
  set numRequiredSlots := (getNumRequiredEntries (numEntries % 2 ^ 32) + cap - 1) / cap
  have hsize : numRequiredSlots < 2 ^ 31 := by
    refine Nat.div_lt_of_lt_mul ?_
    rw [getNumRequiredEntries]
    omega
  by_cases hle : numRequiredSlots ≤ idx.pSlots.length
  · exact ⟨idx, chains, A, B, free, if_pos hle, h, .refl _, .refl .., .refl ..⟩
  by_cases hzero : idx.indexHeader.numEntries = 0
  -- an empty index gets its slots at once
  · have hempty := h.counted hzero
    have hr := h.header
    have hpow := hr.size
    obtain ⟨chains', hrep, hnum⟩ := allocateSlots_spec numRequiredSlots h.heap
      (fun i hi => hempty i hi ▸ h.holds i hi) ⟨hr.levelHashMask, hr.higherLevelHashMask⟩
      (by omega) (by omega) hsize
    have hnil : ∀ {C : ℕ → List (K × ℕ)}, (∀ i < idx.pSlots.length, C i = []) →
        Regrouped hash idx.indexHeader (idx.allocateSlots cap numRequiredSlots).indexHeader
          idx.pSlots.length (idx.allocateSlots cap numRequiredSlots).pSlots.length C
          fun _ => [] := by
      intro C hC
      refine ⟨?_, fun x => ?_⟩
      · rw [content_congr (n := idx.pSlots.length) hC]
        simp [content]
      · rw [hC _ (hr.getPrimarySlotIdForHash_lt x)]
    refine ⟨_, chains', fun _ => [], fun _ => [], free, ?_, hrep, hnum,
      hnil fun i hi => (append_eq_nil_iff.mp (hempty i hi)).1,
      hnil fun i hi => (append_eq_nil_iff.mp (hempty i hi)).2⟩
    rw [if_neg hle, if_pos hzero]
  -- otherwise slots are split one by one
  · obtain ⟨idx', chains', A', B', free', hrun, hrep, hnum, hA, hB⟩ :=
      splitUntil_split (by omega) hsize numRequiredSlots idx chains A B free h (by omega)
    refine ⟨idx', chains', A', B', free', ?_, hrep, hnum, hA, hB⟩
    rw [if_neg hle, if_neg hzero]
    exact hrun

/-- **Reserving** keeps the entries. -/
lemma reserve_spec (hcap : 4 ≤ cap) {M : Multiset (K × ℕ)} (h : Entries cap hash idx M)
    (numEntries : ℕ) :
    ∃ idx', idx.reserve cap hash numEntries = some idx' ∧ Entries cap hash idx' M ∧
      Tallied idx idx' 0 := by
  obtain ⟨chains, ents, free, h, rfl⟩ := h
  have h0 : Rep cap hash idx chains (fun i => ents i ++ []) free := by simpa using h
  obtain ⟨idx', chains', A', B', free', hrun, hrep, hnum, hA, hB⟩ :=
    reserve_split hcap h0 numEntries
  refine ⟨idx', hrun, ⟨chains', _, free', hrep, ?_⟩, hnum⟩
  have hnil : content B' idx'.pSlots.length = 0 := by simpa [content] using hB.content_eq
  rw [content_append, hnil, add_zero, hA.content_eq]

end Reserve

end InMemHashIndex

end Ladybug
