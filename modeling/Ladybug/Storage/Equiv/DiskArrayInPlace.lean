import Ladybug.Storage.Equiv.DiskArrayList

/-!
# Pages that are written in place

A disk array that bypasses the shadow file writes a page in place when its index is greater than
`lastPageOnDisk`. That is the page of the last element which the array had at the checkpoint
*before* the last one, or when it was opened. So a page of the last checkpoint is safe when its
index is not greater (`run_inPlaceWrites`), and the pages of a first checkpoint are not
(`update_inPlace`).
-/

namespace Ladybug

open Paging List Option

variable {V : Type} {k m : ℕ} {alloc : ℕ → ℕ}

namespace DiskArray

/-- A disk array with its history: the number of elements at the checkpoint before the last one that
changed the array (or when it was opened), and the number of pages that the allocator had returned
at the last checkpoint. -/
structure Tracked (V : Type) where
  previous : ℕ
  allocated : ℕ
  list : ListPair V
  array : DiskArray V

/-- An array that was opened, with its list. -/
def Tracked.opened (list : List V) (array : DiskArray V) : Tracked V :=
  ⟨array.header.numElements, array.numAllocated, ⟨list, list, false⟩, array⟩

/-- An action with its history.  Indexes are in range. -/
def trackedStep (k m : ℕ) (alloc : ℕ → ℕ) (t : Tracked V) (a : Action V) : Option (Tracked V) := do
  let list ← listStep t.list a
  let array ← t.array.step k m alloc a
  return match a with
    | .checkpoint =>
      { previous := if t.array.hasTransactionalUpdates then t.array.header.numElements
          else t.previous
        allocated := array.numAllocated
        list, array }
    | _ => { t with list, array }

/-- The indexes of the elements written through an iterator on an array of `n'` elements. -/
def writtenThroughIterator : ℕ → List (IteratorWrite V) → List ℕ
  | _, [] => []
  | n', .pushBack _ :: ws => n' :: writtenThroughIterator (n' + 1) ws
  | n', .seek idx _ :: ws => idx :: writtenThroughIterator n' ws

/-- The indexes of the elements that an action writes. -/
def Action.written (n' : ℕ) : Action V → List ℕ
  | .write ws => writtenThroughIterator n' ws
  | .update idx _ => [idx]
  | .resize newNumElements _ => List.range' n' (newNumElements - n')
  | .checkpoint => []
  | .rollback _ => []

/-- The page of element `idx` is not after the page of the last element at the checkpoint before. -/
def NotAfterPrevious (k m previous : ℕ) (s : DiskArray V) (idx : ℕ) : Prop :=
  0 < previous ∧
    ∃ p ∈ s.getAPPageIdx m (idx / k) .readOnly,
      ∃ last ∈ s.getAPPageIdx m ((previous - 1) / k) .readOnly, p ≤ last

/-- Elements in pages of the last checkpoint are written only where the page is not after the page
of the last element at the checkpoint before; a rollback finds no new array page behind one with
room, and does not come after the checkpoint of an owner that has written. -/
def Action.InPlaceAllowed (k m : ℕ) (bypassShadowing : Bool) (t : Tracked V) (a : Action V) :
    Prop :=
  (bypassShadowing = true → ∀ idx ∈ a.written t.list.current.length,
    idx / k < numPages k t.list.checkpointed.length → NotAfterPrevious k m t.previous t.array idx) ∧
  match a with
  | .rollback .checkpointInMemory => t.array.hasTransactionalUpdates = false
  | .rollback _ => t.list.checkpointed.length % k = 0 ∨
      numPages k t.list.current.length = numPages k t.list.checkpointed.length
  | _ => True

instance (previous : ℕ) (s : DiskArray V) (idx : ℕ) :
    Decidable (NotAfterPrevious k m previous s idx) :=
  inferInstanceAs (Decidable (_ ∧ _))

instance (bypassShadowing : Bool) (t : Tracked V) (a : Action V) :
    Decidable (a.InPlaceAllowed k m bypassShadowing t) :=
  match a with
  | .write _ | .update .. | .resize .. | .checkpoint | .rollback .writing | .rollback .checkpoint |
    .rollback .checkpointInMemory => inferInstanceAs (Decidable (_ ∧ _))

/-- The pages of a disk array by the time of their allocation. -/
structure PageRep (k m : ℕ) (alloc : ℕ → ℕ) (bypassShadowing : Bool) (previous allocated : ℕ)
    (s : DiskArray V) (aps : List ℕ) (n n' : ℕ) : Prop where
  layout : s.Layout k m alloc aps n n'
  ok : s.shadowFile.Ok
  settled : s.hasTransactionalUpdates = false → n' = n ∧ s.pipUpdates = ⟨none, []⟩
  allocated_le : allocated ≤ s.numAllocated
  previous_le : previous ≤ n
  last : bypassShadowing = false ∧ s.lastPageOnDisk = none ∨
    bypassShadowing = true ∧ (previous = 0 ∧ s.lastPageOnDisk = some 0 ∨
      0 < previous ∧ ∃ p, aps[(previous - 1) / k]? = some p ∧ s.lastPageOnDisk = some p)
  old : ∀ p ∈ aps.take (numPages k n) ++ s.pips.map PIPWrapper.pipPageIdx,
    ∃ j < allocated, alloc j = p
  new : ∀ a p, numPages k n ≤ a → aps[a]? = some p →
    ∃ j, allocated ≤ j ∧ j < s.numAllocated ∧ alloc j = p
  inPlace : ∀ p ∈ s.inPlaceWrites, ∃ j, allocated ≤ j ∧ j < s.numAllocated ∧ alloc j = p

/-- The pages of the last checkpoint on which an element is written are shadowed. -/
def DurableShadowed (k m : ℕ) (s : DiskArray V) (idx : ℕ) : Prop :=
  idx / k < numPages k s.header.numElements →
    ∀ p, s.getAPPageIdx m (idx / k) .readOnly = some p → s.isShadowed p = true

variable {allocated idx n n' previous : ℕ} {bypassShadowing : Bool} {cur cur' : List V}
  {aps : List ℕ} {s s' : DiskArray V} {ws : List (IteratorWrite V)} {it : WriteIterator}

lemma PageRep.durableShadowed (hk : 0 < k)
    (h : s.PageRep k m alloc bypassShadowing previous allocated aps n n')
    (hidx : bypassShadowing = true → idx / k < numPages k n → NotAfterPrevious k m previous s idx) :
    s.DurableShadowed k m idx := by
  intro hlt p hp
  rw [h.layout.numElements] at hlt
  unfold isShadowed
  rcases h.last with ⟨-, hlast⟩ | ⟨hbypass, hlast⟩
  · rw [hlast]
  · obtain ⟨hpos, q, hq, last, hprev, hle⟩ := hidx hbypass hlt
    obtain rfl : q = p := some.inj (hq.symm.trans hp)
    rcases hlast with ⟨hzero, -⟩ | ⟨-, last', haps, hlast⟩
    · omega
    · have hlt' : (previous - 1) / k < numPages k n :=
        div_lt_numPages hk (by have := h.previous_le; omega)
      rw [h.layout.getAPPageIdx_readOnly hlt' haps] at hprev
      obtain rfl := some.inj hprev
      rw [hlast]
      exact decide_eq_true hle

lemma PageRep.change (hk : 0 < k) {aps' : List ℕ} {n'' : ℕ}
    (h : s.PageRep k m alloc bypassShadowing previous allocated aps n n')
    (hlayout : s'.Layout k m alloc aps' n n'') {p : ℕ} (hp : aps'[idx / k]? = some p)
    (hch : Changes s s' p) (hpips : s'.pips = s.pips)
    (htu : s'.hasTransactionalUpdates = true) (hmono : s.numAllocated ≤ s'.numAllocated)
    (haps : aps' = aps ∨
      aps' = aps ++ [p] ∧ p = alloc s.numAllocated ∧ s.numAllocated < s'.numAllocated)
    (hdur : s.DurableShadowed k m idx) :
    s'.PageRep k m alloc bypassShadowing previous allocated aps' n n'' := by
  have hlen : numPages k n ≤ aps.length := by
    rw [h.layout.length_aps]
    exact numPages_mono hk h.layout.le
  have hinit : aps <+: aps' := by
    rcases haps with rfl | ⟨rfl, -⟩
    · exact prefix_rfl
    · exact prefix_append ..
  have htake : aps'.take (numPages k n) = aps.take (numPages k n) := by
    obtain ⟨zs, rfl⟩ := hinit
    rw [take_append_of_le_length hlen]
  -- a page of the transaction is one allocated by it
  have hnew : ∀ a q, numPages k n ≤ a → aps'[a]? = some q →
      ∃ j, allocated ≤ j ∧ j < s'.numAllocated ∧ alloc j = q := by
    intro a q ha hq
    have hold : aps[a]? = some q → ∃ j, allocated ≤ j ∧ j < s'.numAllocated ∧ alloc j = q :=
      fun hq' => by
        obtain ⟨j, hj, hlt, heq⟩ := h.new a q ha hq'
        exact ⟨j, hj, hlt.trans_le hmono, heq⟩
    rcases haps with rfl | ⟨rfl, rfl, hlt⟩
    · exact hold hq
    · rcases Nat.lt_or_ge a aps.length with halt | hage
      · rw [getElem?_append_left halt] at hq
        exact hold hq
      · rw [getElem?_append_right hage, getElem?_singleton] at hq
        split_ifs at hq
        exact ⟨s.numAllocated, h.allocated_le, hlt, some.inj hq⟩
  refine ⟨hlayout, hch.ok, fun hfalse => ?_, h.allocated_le.trans hmono, h.previous_le, ?_, ?_,
    hnew, fun q hq => ?_⟩
  · rw [htu] at hfalse
    cases hfalse
  · rw [hch.lastPageOnDisk]
    refine h.last.imp_right fun ⟨hbypass, hlast⟩ => ⟨hbypass, hlast.imp_right ?_⟩
    rintro ⟨hpos, q, hq, hlast⟩
    exact ⟨hpos, q, getElem?_of_init hinit hq, hlast⟩
  · rw [htake, hpips]
    exact h.old
  · rcases hch.inPlace q hq with hq | ⟨rfl, hsh⟩
    · obtain ⟨j, hj, hlt, heq⟩ := h.inPlace q hq
      exact ⟨j, hj, hlt.trans_le hmono, heq⟩
    · -- a page of the last checkpoint would be shadowed
      refine hnew (idx / k) q (Nat.le_of_not_lt fun hlt => ?_) hp
      rw [← getElem?_take_of_lt hlt, htake, getElem?_take_of_lt hlt] at hp
      have := hdur (by rw [h.layout.numElements]; exact hlt) q
        (h.layout.getAPPageIdx_readOnly hlt hp)
      rw [hsh] at this
      cases this

lemma DurableShadowed.congr (h : s.DurableShadowed k m idx)
    (hheader : s'.header.numElements = s.header.numElements) (hpips : s'.pips = s.pips)
    (hlast : s'.lastPageOnDisk = s.lastPageOnDisk) : s'.DurableShadowed k m idx := by
  intro hlt p hp
  rw [getAPPageIdx_readOnly, hpips, ← getAPPageIdx_readOnly] at hp
  rw [isShadowed_congr hlast]
  exact h (by rw [← hheader]; exact hlt) p hp

lemma PageRep.iterMut (h : s.PageRep k m alloc bypassShadowing previous allocated aps n n') :
    s.iterMut.2.PageRep k m alloc bypassShadowing previous allocated aps n n' :=
  { h with
    layout := { h.layout with }
    settled := nofun }

section

variable (hk : 0 < k) (hm : 0 < m) (halloc : Function.Injective alloc)
  (h : s.PageRep k m alloc bypassShadowing previous allocated aps n cur.length)

include hk hm halloc h

/-- One write through the iterator. -/
lemma iteratorStep_pageRep (hit : s.IterOk aps it) (htu : s.hasTransactionalUpdates = true)
    {w : IteratorWrite V} (hw : listWrite cur w = some cur')
    (hdur : ∀ idx ∈ writtenThroughIterator cur.length (w :: ws), s.DurableShadowed k m idx) :
    ∃ it' s' aps', iteratorStep k m alloc (it, s) w = some (it', s') ∧
      s'.PageRep k m alloc bypassShadowing previous allocated aps' n cur'.length ∧
      s'.IterOk aps' it' ∧ s'.hasTransactionalUpdates = true ∧
      ∀ idx ∈ writtenThroughIterator cur'.length ws, s'.DurableShadowed k m idx := by
  cases w with
  | seek i v =>
    simp only [listWrite] at hw
    split_ifs at hw with hi
    obtain rfl := some.inj hw
    obtain ⟨it', s', p, hseek, hp, hsame, hwrites, hit'⟩ :=
      seekAndWrite_spec hk h.layout h.ok hit hi v
    have htu' := hsame.hasTransactionalUpdates.trans htu
    refine ⟨it', s', aps, hseek, ?_, hit', htu', fun idx hidx => ?_⟩
    · rw [length_set]
      exact h.change hk (h.layout.congr hsame) hp hwrites.toChanges hsame.pips htu'
        hsame.numAllocated.ge (.inl rfl) (hdur i mem_cons_self)
    · rw [length_set] at hidx
      exact (hdur idx (mem_cons_of_mem _ hidx)).congr (by rw [hsame.header]) hsame.pips
        hwrites.lastPageOnDisk
  | pushBack v =>
    obtain rfl := some.inj hw
    -- the new element is in the last page or in one page more
    obtain ⟨it', s', aps', p, hpush, hlayout, hp, hch, -, -, haps, htu', hpips, hit'⟩ :=
      pushBack_spec hk hm halloc h.layout h.ok hit v
    have hlen : (cur ++ [v]).length = cur.length + 1 := by simp
    rw [htu] at htu'
    refine ⟨it', s', aps', hpush, ?_, hit', htu', fun idx hidx => ?_⟩
    · rw [hlen]
      refine h.change hk hlayout hp hch hpips htu' ?_ ?_ (hdur _ mem_cons_self)
      · rcases haps with ⟨-, hn⟩ | ⟨-, -, -, hn⟩
        · exact hn.ge
        · exact hn.le
      · exact haps.imp And.left (And.imp_right And.right)
    · rw [hlen] at hidx
      refine (hdur idx (mem_cons_of_mem _ hidx)).congr ?_ hpips hch.lastPageOnDisk
      rw [hlayout.numElements, h.layout.numElements]

lemma foldlM_iteratorStep_pageRep (hit : s.IterOk aps it) (htu : s.hasTransactionalUpdates = true)
    (hws : ws.foldlM listWrite cur = some cur')
    (hdur : ∀ idx ∈ writtenThroughIterator cur.length ws, s.DurableShadowed k m idx) :
    ∃ it' s' aps', ws.foldlM (iteratorStep k m alloc) (it, s) = some (it', s') ∧
      s'.PageRep k m alloc bypassShadowing previous allocated aps' n cur'.length := by
  induction ws generalizing s it aps cur with
  | nil =>
    obtain rfl := some.inj hws
    exact ⟨it, s, aps, rfl, h⟩
  | cons w ws ih =>
    obtain ⟨cur1, hw, hrest⟩ := Fold.foldlM_cons_some.mp hws
    obtain ⟨it1, s1, aps1, hstep, h1, hit1, htu1, hdur1⟩ :=
      iteratorStep_pageRep hk hm halloc h hit htu hw hdur
    obtain ⟨it', s', aps', hrun, h'⟩ := ih h1 hit1 htu1 hrest hdur1
    exact ⟨it', s', aps', Fold.foldlM_cons_some.mpr ⟨(it1, s1), hstep, hrun⟩, h'⟩

/-- Writing through the iterator keeps the pages. -/
lemma write_pageRep (hws : ws.foldlM listWrite cur = some cur')
    (hdur : ∀ idx ∈ writtenThroughIterator cur.length ws, s.DurableShadowed k m idx) :
    ∃ s' aps', s.write k m alloc ws = some s' ∧
      s'.PageRep k m alloc bypassShadowing previous allocated aps' n cur'.length := by
  have hit : s.iterMut.2.IterOk aps s.iterMut.1 := nofun
  obtain ⟨it', s', aps', hrun, h'⟩ :=
    foldlM_iteratorStep_pageRep hk hm halloc h.iterMut hit rfl hws hdur
  refine ⟨s', aps', ?_, h'⟩
  rw [write, show s.iterMut = (s.iterMut.1, s.iterMut.2) from rfl, hrun]
  rfl

end

lemma writtenThroughIterator_replicate (n' c : ℕ) (v : V) :
    writtenThroughIterator n' (List.replicate c (.pushBack v)) = List.range' n' c := by
  induction c generalizing n' with
  | zero => rfl
  | succ c ih =>
    rw [replicate_succ, writtenThroughIterator, ih, List.range'_succ]

section

variable (hk : 0 < k) (h : s.PageRep k m alloc bypassShadowing previous allocated aps n n')

include hk h

/-- Updating keeps the pages. -/
lemma update_pageRep {i : ℕ} (hi : i < n') (v : V) (hdur : s.DurableShadowed k m i) :
    ∃ s', s.update k m i v = some s' ∧
      s'.PageRep k m alloc bypassShadowing previous allocated aps n n' := by
  have hw := h.iterMut
  obtain ⟨p, hp⟩ := h.layout.exists_page hk hi
  obtain ⟨hsame, hwrites, -⟩ := writes_of_getPage hw.ok p (i % k) v
  refine ⟨(s.iterMut.2.getPage p false).2.writeFrame (i % k) v (s.iterMut.2.getPage p false).1,
    bind_eq_some_iff.mpr ⟨p, hw.layout.getAPPageIdx hp, rfl⟩, ?_⟩
  exact hw.change hk (hw.layout.congr hsame) hp hwrites.toChanges hsame.pips
    hsame.hasTransactionalUpdates hsame.numAllocated.ge (.inl rfl) (hdur.congr rfl rfl rfl)

/-- A checkpoint makes the new length durable. -/
lemma checkpointAll_pageRep :
    ∃ s', s.checkpointAll k m = some s' ∧
      s'.PageRep k m alloc bypassShadowing
        (if s.hasTransactionalUpdates then s.header.numElements else previous) s'.numAllocated
        aps n' n' := by
  obtain ⟨sf, last, hstep, -, hlast⟩ :=
    checkpointIndex_spec hk h.layout h.ok fun htu => (h.settled htu).2
  have hlen : numPages k n' = aps.length := h.layout.length_aps.symm
  refine ⟨_, bind_eq_some_iff.mpr ⟨_, hstep, rfl⟩, h.layout.checkpointed rfl rfl rfl rfl rfl rfl,
    nofun, fun _ => ⟨rfl, rfl⟩, le_rfl, ?_, ?_, fun p hp => ?_, fun a p ha hp => ?_, nofun⟩
  · split_ifs
    · rw [h.layout.numElements]
      exact h.layout.le
    · exact h.previous_le.trans h.layout.le
  · rcases hlast with ⟨rfl, hkeep⟩ | ⟨htu, hsome, hlast⟩
    · rcases h.last with hnone | ⟨hbypass, hlast⟩
      · exact .inl hnone
      · have htu : s.hasTransactionalUpdates = false := hkeep.resolve_right fun hnone => by
          rcases hlast with ⟨-, hlast⟩ | ⟨-, p, -, hlast⟩ <;> rw [hnone] at hlast <;> cases hlast
        rw [htu]
        exact .inr ⟨hbypass, hlast⟩
    · rw [htu, if_pos rfl, h.layout.numElements]
      refine .inr ⟨?_, hlast⟩
      rcases h.last with ⟨-, hnone⟩ | ⟨hbypass, -⟩
      · rw [hnone] at hsome
        cases hsome
      · exact hbypass
  · rw [hlen, take_length] at hp
    exact h.layout.allocated p hp
  · rw [getElem?_eq_none (by rw [← hlen]; exact ha)] at hp
    cases hp

/-- A rollback restores the durable length. -/
lemma rollbackAll_pageRep (hpage : n % k = 0 ∨ numPages k n' = numPages k n) :
    ∃ s', s.rollbackAll k m = some s' ∧
      s'.PageRep k m alloc bypassShadowing previous allocated (aps.take (numPages k n)) n n := by
  obtain ⟨sf, hstep, hch⟩ := rollbackAll_spec h.layout h.ok fun htu => (h.settled htu).2
  refine ⟨_, hstep, h.layout.rolledBack hk rfl rfl rfl rfl rfl rfl hpage, hch.ok,
    fun _ => ⟨rfl, rfl⟩, h.allocated_le, h.previous_le, ?_, ?_, fun a p ha hp => ?_, h.inPlace⟩
  · refine h.last.imp_right fun ⟨hbypass, hlast⟩ => ⟨hbypass, hlast.imp_right ?_⟩
    rintro ⟨hpos, p, hp, hlast⟩
    have hlt : (previous - 1) / k < numPages k n :=
      div_lt_numPages hk (by have := h.previous_le; omega)
    exact ⟨hpos, p, by rw [getElem?_take_of_lt hlt, hp], hlast⟩
  · rw [take_take, Nat.min_self]
    exact h.old
  · rw [getElem?_eq_none (by rw [length_take]; omega)] at hp
    cases hp

omit hk in
lemma PageRep.checkpoint :
    s.checkpoint.PageRep k m alloc bypassShadowing previous allocated aps n n' :=
  { h with
    layout := h.layout.congr ⟨rfl, rfl, rfl, rfl, rfl, rfl, rfl⟩
    ok := (checkpoint_changesIn h.ok).ok }

/-- A failed checkpoint restores the durable length. -/
lemma failedCheckpoint_pageRep (stage : CheckpointStage) (hstage : match stage with
      | .checkpointInMemory => s.hasTransactionalUpdates = false
      | _ => n % k = 0 ∨ numPages k n' = numPages k n) :
    ∃ s', s.failedCheckpoint k m stage = some s' ∧
      s'.PageRep k m alloc bypassShadowing previous allocated (aps.take (numPages k n)) n n := by
  cases stage with
  | writing => exact rollbackAll_pageRep hk h hstage
  | checkpoint => exact rollbackAll_pageRep hk h.checkpoint hstage
  | checkpointInMemory =>
    obtain ⟨rfl, hpips⟩ := h.settled hstage
    have hrep : PageRep k m alloc bypassShadowing previous allocated
        { s with header := s.headerForWriteTrx } aps n' n' :=
      { h with layout := { h.layout with numElements := h.layout.numElementsForWriteTrx } }
    obtain ⟨s', hs', hrep'⟩ := rollbackAll_pageRep hk hrep (.inr rfl)
    exact ⟨s', bind_eq_some_iff.mpr ⟨_, checkpointIndex_of_settled hstage hpips, hs'⟩, hrep'⟩

end

/-! ### Opening -/

/-- A loaded array represents its file. -/
lemma load_pageRep {file : ℕ → Page V} {header : DiskArrayHeader} {fuel numAllocated : ℕ}
    (hk : 0 < k) (hload : load k m file header bypassShadowing fuel numAllocated = some s)
    (hstored : Stored k m alloc numAllocated s.pips aps header.numElements) :
    s.PageRep k m alloc bypassShadowing header.numElements numAllocated aps header.numElements
      header.numElements := by
  have hlayout := load_layout hk hload hstored
  obtain ⟨last, hs, hlast⟩ := load_spec hk hload hstored
  have htake : aps.take (numPages k header.numElements) = aps := by
    rw [← hstored.length_aps, take_length]
  generalize s.pips = pips at hs hstored
  subst hs
  exact {
    layout := hlayout
    ok := nofun
    settled := fun _ => ⟨rfl, rfl⟩
    allocated_le := le_rfl
    previous_le := le_rfl
    last := hlast
    old := by rw [htake]; exact hstored.allocated
    new := fun a p ha hp => by
      rw [getElem?_eq_none (by rw [hstored.length_aps]; exact ha)] at hp
      cases hp
    inPlace := nofun }

/-! ### Runs -/

/-- The history of a disk array. -/
def Tracked.Rep (k m : ℕ) (alloc : ℕ → ℕ) (bypassShadowing : Bool) (t : Tracked V) : Prop :=
  ∃ aps, t.array.PageRep k m alloc bypassShadowing t.previous t.allocated aps
    t.list.checkpointed.length t.list.current.length

/-- **Each step** keeps the representation. -/
lemma trackedStep_rep (hk : 0 < k) (hm : 0 < m) (halloc : Function.Injective alloc)
    {t : Tracked V} (h : t.Rep k m alloc bypassShadowing) {a : Action V}
    (ha : a.InPlaceAllowed k m bypassShadowing t) {list : ListPair V}
    (hlist : listStep t.list a = some list) :
    ∃ t', trackedStep k m alloc t a = some t' ∧ t'.Rep k m alloc bypassShadowing := by
  obtain ⟨aps, h⟩ := h
  have hdur : ∀ idx ∈ a.written t.list.current.length, t.array.DurableShadowed k m idx :=
    fun idx hidx => h.durableShadowed hk fun hbypass => ha.1 hbypass idx hidx
  -- the array makes the step, and the history is as after the step
  suffices hs : ∃ s' aps', t.array.step k m alloc a = some s' ∧
      s'.PageRep k m alloc bypassShadowing
        (match a with
          | .checkpoint => if t.array.hasTransactionalUpdates then t.array.header.numElements
              else t.previous
          | _ => t.previous)
        (match a with | .checkpoint => s'.numAllocated | _ => t.allocated)
        aps' list.checkpointed.length list.current.length by
    obtain ⟨s', aps', hstep, hrep⟩ := hs
    refine ⟨_, bind_eq_some_iff.mpr ⟨list, hlist, bind_eq_some_iff.mpr ⟨s', hstep, rfl⟩⟩, aps', ?_⟩
    cases a <;> exact hrep
  cases a with
  | write ws =>
    obtain ⟨cur', hws, rfl⟩ := map_eq_some_iff.mp hlist
    exact write_pageRep hk hm halloc h hws hdur
  | update i v =>
    simp only [listStep] at hlist
    split_ifs at hlist with hi
    obtain rfl := some.inj hlist
    obtain ⟨s', hs', hrep⟩ := update_pageRep hk h hi v (hdur i mem_cons_self)
    exact ⟨s', aps, hs', by
      rw [length_set]
      exact hrep⟩
  | resize n v =>
    obtain rfl := some.inj hlist
    refine write_pageRep hk hm halloc h ?_ ?_
    · rw [h.layout.numElementsForWriteTrx]
      exact foldlM_listWrite_replicate ..
    · rw [h.layout.numElementsForWriteTrx, writtenThroughIterator_replicate]
      exact hdur
  | checkpoint =>
    obtain rfl := some.inj hlist
    obtain ⟨s', hs', hrep⟩ := checkpointAll_pageRep hk h
    exact ⟨s', aps, hs', hrep⟩
  | rollback stage =>
    obtain rfl := some.inj hlist
    obtain ⟨s', hs', hrep⟩ := failedCheckpoint_pageRep hk h stage (by
      cases stage <;> exact ha.2)
    exact ⟨s', _, hs', hrep⟩

/-- **In-place writes** go to pages that the allocator returned after the last checkpoint, and to no
page of the last checkpoint, in every run from an array that was opened in which the elements
written lie in pages not after the page of the last element at the checkpoint before. -/
theorem run_inPlaceWrites (hk : 0 < k) (hm : 0 < m) (halloc : Function.Injective alloc)
    {file : ℕ → Page V} {header : DiskArrayHeader} {fuel numAllocated : ℕ} {array : DiskArray V}
    (hload : load k m file header bypassShadowing fuel numAllocated = some array)
    (hstored : Stored k m alloc numAllocated array.pips aps header.numElements)
    {list : List V} (hlength : list.length = header.numElements)
    {as : List (Action V)} {t : Tracked V}
    (hrun : as.foldlM (trackedStep k m alloc) (.opened list array) = some t)
    (hallowed : Fold.Guarded (trackedStep k m alloc)
      (fun t a => a.InPlaceAllowed k m bypassShadowing t) (.opened list array) as) :
    ∀ p ∈ t.array.inPlaceWrites,
      (∃ j, t.allocated ≤ j ∧ j < t.array.numAllocated ∧ alloc j = p) ∧
      (∀ apIdx < t.array.header.getNumAPs k, t.array.getAPPageIdx m apIdx .readOnly ≠ some p) ∧
      ∀ pip ∈ t.array.pips, pip.pipPageIdx ≠ p := by
  have hopened : (Tracked.opened list array).Rep k m alloc bypassShadowing := by
    have hrep := load_pageRep hk hload hstored
    obtain ⟨last, hs, -⟩ := load_spec hk hload hstored
    rw [← hlength] at hrep
    refine ⟨aps, ?_⟩
    show array.PageRep k m alloc bypassShadowing array.header.numElements array.numAllocated aps
      list.length list.length
    rw [hrep.layout.numElements, show array.numAllocated = numAllocated by rw [hs]]
    exact hrep
  have hrep : t.Rep k m alloc bypassShadowing := by
    refine Fold.foldlM_guarded_invariant (P := Tracked.Rep k m alloc bypassShadowing)
      (fun t a t' hrep ha hstep => ?_) hopened hallowed hrun
    obtain ⟨list, hlist, -⟩ := bind_eq_some_iff.mp hstep
    obtain ⟨t'', hstep', hrep'⟩ := trackedStep_rep hk hm halloc hrep ha hlist
    exact some.inj (hstep'.symm.trans hstep) ▸ hrep'
  obtain ⟨aps, h⟩ := hrep
  intro p hp
  obtain ⟨j, hj, hlt, heq⟩ := h.inPlace p hp
  -- a page of the last checkpoint was returned before it
  have hnot : p ∉ aps.take (numPages k t.list.checkpointed.length)
      ++ t.array.pips.map PIPWrapper.pipPageIdx := fun hmem => by
    obtain ⟨i, hi, heq'⟩ := h.old p hmem
    have := halloc (heq'.trans heq.symm)
    omega
  refine ⟨⟨j, hj, hlt, heq⟩, fun apIdx hap hget => hnot (mem_append_left _ ?_),
    fun pip hpip hpage => hnot (mem_append_right _ ?_)⟩
  · have hap' : apIdx < numPages k t.list.checkpointed.length := by
      rw [← h.layout.numElements]
      exact hap
    have hlt' : apIdx < aps.length :=
      hap'.trans_le (by rw [h.layout.length_aps]; exact numPages_mono hk h.layout.le)
    rw [h.layout.getAPPageIdx_readOnly hap' (getElem?_eq_getElem hlt')] at hget
    refine mem_of_getElem? (i := apIdx) ?_
    rw [getElem?_take_of_lt hap', getElem?_eq_getElem hlt', hget]
  · rw [← hpage]
    exact mem_map_of_mem hpip

/-- The array is opened, an old element is changed and a page is added, and the same again after a
checkpoint. -/
theorem run_inPlaceWrites_grow :
    ∃ t : Tracked ℕ, [Action.update 0 9, .write [.pushBack 5, .pushBack 6], .checkpoint,
        .update 1 8, .write [.pushBack 7]].foldlM (trackedStep 2 3 Nat.succ)
          (.opened [1, 2, 3, 4] storedArray) = some t ∧
      t.array.inPlaceWrites = [5] ∧
      ∀ p ∈ t.array.inPlaceWrites, ∀ pip ∈ t.array.pips, pip.pipPageIdx ≠ p := by
  have hwrites : ([Action.update 0 9, .write [.pushBack 5, .pushBack 6], .checkpoint,
        .update 1 8, .write [.pushBack 7]].foldlM (trackedStep 2 3 Nat.succ)
          (.opened [1, 2, 3, 4] storedArray)).map (·.array.inPlaceWrites) = some [5] := by
    decide +kernel
  obtain ⟨t, ht, hp⟩ := map_eq_some_iff.mp hwrites
  exact ⟨t, ht, hp, fun p hp => (run_inPlaceWrites (by decide) (by decide) Nat.succ_injective
    (show load 2 3 storedFile ⟨4, some 2⟩ true 1 3 = some storedArray from rfl)
    storedArray_stored rfl
    ht (by decide +kernel) p hp).2.2⟩

/-- After the first checkpoint, element 0 is changed: its page belongs to the checkpoint and is
written in place. -/
theorem update_inPlace :
    ([Action.write [.pushBack 1], .checkpoint, .update 0 7].foldlM (trackedStep 2 3 Nat.succ)
        (.opened [] (new (fun _ => .blank) true))).map
      (fun t => (t.array.header.numElements, t.array.getAPPageIdx 3 0 .readOnly,
        t.array.inPlaceWrites)) = some (1, some 1, [1]) := by
  decide +kernel

end DiskArray

end Ladybug
