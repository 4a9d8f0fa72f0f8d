import Ladybug.Index.Equiv.PrimaryKeyIndex
import Ladybug.Storage.Equiv.RecordView

/-!
# The primary key index after the rollback of a batch

A rollback of a batch of nodes discards the keys of all rows that it reads, and for every undo
record it reads whole vectors of rows.

* `scanIndexColumns_spec`: the vectors that the masked scan reads (`readVectors`), and that it
  discards the keys of the rows in them which the transaction sees;
* `ReadsKeys`, `exists_readsKeys`: the keys that are read while the records are undone;
* `rollback_restores`: the index is as before the batch exactly when no row that is read has the key
  of an older local entry, and when for every key enough rows are read.

The remaining theorems give a batch whose rollback removes an entry of another row.
-/

namespace Ladybug

namespace NodeTable

open PrimaryKeyIndex List Multiset InMemHashIndex

variable {K : Type} [Inhabited K] [BEq K] {slotCap : ℕ} {hash : K → ℕ}

/-! ### Discarded keys -/

section Discard

variable (hcap : 4 ≤ slotCap) (heq : ∀ a b : K, (a == b) = true → hash a = hash b)
  {idx : PrimaryKeyIndex K}

include hcap heq

/-- The lookup before a discard changes nothing: without an entry there is nothing to discard. -/
lemma discardKey_eq (h : PrimaryKeyIndex.Rep slotCap hash idx) (key : K) :
    discardKey slotCap hash idx key = (idx.discardLocal slotCap hash key).map Prod.fst := by
  have hpos := getHashIndexPosition_lt (hash key)
  obtain ⟨chains, ents, free, hrep, -⟩ := h _ hpos
  obtain ⟨r, hlookup, hfound⟩ := InMemHashIndex.lookup_spec (by omega) heq hrep.entries key
    fun _ => true
  rw [discardKey, PrimaryKeyIndex.lookup, HashIndex.lookupInternal, getTypedHashIndex, hlookup]
  cases r with
  | some v =>
    cases idx.discardLocal slotCap hash key <;> rfl
  | none =>
    have hnone : ((ents (HashIndexUtils.getPrimarySlotIdForHash
        (idx.hashIndices (getHashIndexPosition (hash key))).localInsertions.indexHeader
        (hash key))).findIdx? (Matches key fun _ => true)) = none := by
      refine findIdx?_eq_none_iff.mpr fun e he => ?_
      by_contra hkey
      rw [Bool.not_eq_false, Matches, Bool.and_true] at hkey
      exact absurd (hfound e (hrep.mem_content_chain he) hkey) (by simp)
    have hdelete := deleteKey_missing heq hrep rfl hnone
    have hdiscard : idx.discardLocal slotCap hash key = some (idx, false) := by
      rw [discardLocal, getTypedHashIndex, HashIndex.discardLocal, hdelete]
      show some (idx.setHashIndex _ (idx.hashIndices _), false) = _
      rw [setHashIndex, Function.update_eq_self]
    rw [hdiscard]
    simp only [Option.bind_eq_bind, Option.bind_some, Option.pure_def]
    cases (idx.hashIndices (getHashIndexPosition (hash key))).lookupInPersistentIndex key
      fun _ => true <;> rfl

lemma discardKeys_cons {idx₁ idx' : PrimaryKeyIndex K} (h : PrimaryKeyIndex.Rep slotCap hash idx)
    {key : K} {keys : List K} {d : Bool} (hkey : idx.discardLocal slotCap hash key = some (idx₁, d))
    (hkeys : keys.foldlM (discardKey slotCap hash) idx₁ = some idx') :
    (key :: keys).foldlM (discardKey slotCap hash) idx = some idx' := by
  rw [foldlM_cons, discardKey_eq hcap heq h, hkey]
  exact hkeys

/-- Discarding keys keeps the index well formed. -/
lemma discardKeys_rep : ∀ (keys : List K) {idx : PrimaryKeyIndex K},
    PrimaryKeyIndex.Rep slotCap hash idx →
    ∃ idx', keys.foldlM (discardKey slotCap hash) idx = some idx' ∧
      PrimaryKeyIndex.Rep slotCap hash idx' ∧
      idx'.entries ≤ idx.entries := by
  intro keys
  induction keys with
  | nil => exact fun h => ⟨_, rfl, h, le_rfl⟩
  | cons key keys ih =>
    intro idx h
    obtain ⟨idx₁, d, hrun1, h1, hle1⟩ := h.discardLocal (by omega) heq key
    obtain ⟨idx', hrun, h', hle⟩ := ih h1
    exact ⟨idx', discardKeys_cons hcap heq h hrun1 hrun, h', hle.trans hle1⟩

variable {base : PrimaryKeyIndex K} {older : ℕ → ℕ → List (K × ℕ)} {M : ℕ → Multiset (K × ℕ)}

/-- Keys without an older entry take entries of the batch only, one each. -/
lemma discardKeys_batch [PartialEquivBEq K] : ∀ (keys : List K) {idx : PrimaryKeyIndex K}
    {b : ℕ → Multiset (K × ℕ)}, Layered slotCap hash base older M b idx →
    (∀ key ∈ keys, ∀ e ∈ total M, (key == e.1) = false) →
    ∃ idx' b', keys.foldlM (discardKey slotCap hash) idx = some idx' ∧
      Layered slotCap hash base older M b' idx' ∧ total b' ≤ total b ∧
      (∀ k, (total b').countP (fun e => k == e.1) =
        (total b).countP (fun e => k == e.1) - keys.countP (k == ·)) ∧
      ∀ e ∈ total b, (e.1 == e.1) = false → e ∈ total b' := by
  intro keys
  induction keys with
  | nil => exact fun h _ => ⟨_, _, rfl, h, le_rfl, fun k => by simp, fun e he _ => he⟩
  | cons key keys ih =>
    intro idx b h hM
    obtain ⟨idx₁, d, b1, hrun1, h1, htotal1⟩ :=
      h.discardLocal_batch hcap heq key (hM key mem_cons_self)
    obtain ⟨idx', b', hrun, h', hle, hcount, hirrefl⟩ :=
      ih h1 fun k hk => hM k (mem_cons_of_mem _ hk)
    refine ⟨idx', b', discardKeys_cons hcap heq h.rep hrun1 hrun, h', ?_, fun k => ?_, ?_⟩
    · rcases htotal1 with ⟨e, -, htotal⟩ | ⟨htotal, -⟩
      · rw [htotal]
        exact hle.trans (le_cons_self _ _)
      · rwa [htotal] at hle
    · rw [hcount, List.countP_cons]
      rcases htotal1 with ⟨e, hkey, htotal⟩ | ⟨htotal, hnone⟩
      · -- the entry that goes has the key of the row that was read
        rw [htotal, Multiset.countP_cons, ← BEq.congr_right hkey]
        split_ifs <;> omega
      · rw [htotal]
        cases hk : k == key with
        | false => simp
        | true =>
          -- no entry of the batch has the key
          have hzero : (total b).countP (fun e => k == e.1) = 0 := by
            refine countP_eq_zero.mpr fun e he => ?_
            rw [BEq.congr_left hk, hnone e he]
            exact Bool.false_ne_true
          rw [hzero]
          omega
    · intro e he hrefl
      refine hirrefl e ?_ hrefl
      rcases htotal1 with ⟨x, hkey, htotal⟩ | ⟨htotal, -⟩
      · rw [htotal] at he
        rcases mem_cons.mp he with rfl | he
        · rw [← BEq.congr_left hkey, hkey] at hrefl
          cases hrefl
        · exact he
      · rwa [htotal]

/-- A key with an older entry takes an older entry, and no entry comes back. -/
lemma discardKeys_older : ∀ (keys : List K) {idx : PrimaryKeyIndex K}
    {b : ℕ → Multiset (K × ℕ)}, Layered slotCap hash base older M b idx →
    (∃ key ∈ keys, ∃ e ∈ total M, (key == e.1) = true) →
    ∃ idx' e M', keys.foldlM (discardKey slotCap hash) idx = some idx' ∧
      total M = e ::ₘ M' ∧ idx'.entries ≤ M' + total b := by
  intro keys
  induction keys with
  | nil => rintro idx b h ⟨key, hkey, -⟩; cases hkey
  | cons key keys ih =>
    intro idx b h hM
    by_cases hkey : ∃ e ∈ total M, (key == e.1) = true
    · obtain ⟨idx₁, d, e, M', hrun1, h1, hMe, hentries⟩ := h.discardLocal_older hcap heq key hkey
      obtain ⟨idx', hrun, -, hle⟩ := discardKeys_rep hcap heq keys h1
      exact ⟨idx', e, M', discardKeys_cons hcap heq h.rep hrun1 hrun, hMe, hentries ▸ hle⟩
    · have hnone : ∀ e ∈ total M, (key == e.1) = false := by
        intro e he
        by_contra hne
        exact hkey ⟨e, he, Bool.not_eq_false _ ▸ hne⟩
      obtain ⟨idx₁, d, b1, hrun1, h1, htotal1⟩ := h.discardLocal_batch hcap heq key hnone
      have hrest : ∃ k ∈ keys, ∃ e ∈ total M, (k == e.1) = true := by
        obtain ⟨k, hk, hke⟩ := hM
        rcases mem_cons.mp hk with rfl | hk
        · exact absurd hke hkey
        · exact ⟨k, hk, hke⟩
      obtain ⟨idx', e, M', hrun, hMe, hle⟩ := ih h1 hrest
      have hb1 : total b1 ≤ total b := by
        rcases htotal1 with ⟨x, -, htotal⟩ | ⟨htotal, -⟩
        · rw [htotal]
          exact le_cons_self _ _
        · exact htotal.le
      exact ⟨idx', e, M', discardKeys_cons hcap heq h.rep hrun1 hrun, hMe,
        hle.trans (add_le_add_right hb1 M')⟩

end Discard

/-! ### The scan of the table -/

section Scan

variable {cap m lo hi : ℕ} {pk : Fin m} {T : Transaction}

/-- The keys of a scanned vector are discarded. -/
lemma processScanOutput_eq : ∀ {out : List (OutputRow m K)} {keys : List K},
    out.map (fun row => row.2 pk) = keys.map some → ∀ idx : PrimaryKeyIndex K,
    processScanOutput slotCap hash pk idx out = keys.foldlM (discardKey slotCap hash) idx := by
  intro out
  induction out with
  | nil =>
    intro keys hkeys idx
    obtain rfl : keys = [] := by simpa using hkeys.symm
    rfl
  | cons row out ih =>
    intro keys hkeys idx
    cases keys with
    | nil => simp at hkeys
    | cons key keys =>
      rw [List.map_cons, List.map_cons, List.cons.injEq] at hkeys
      have hstep : (row.2 pk).bind (discardKey slotCap hash idx) =
          discardKey slotCap hash idx key := by
        rw [hkeys.1]
        rfl
      show ((row.2 pk).bind (discardKey slotCap hash idx)).bind
        (fun idx => processScanOutput slotCap hash pk idx out) = _
      rw [hstep]
      exact congrArg _ (funext fun idx => ih hkeys.2 idx)

/-- What the scans return and leave when the vectors `vs` are left. -/
def ScansRest (slotCap : ℕ) (hash : K → ℕ) (pk : Fin m) (T : Transaction) (lo hi : ℕ)
    (ng : NodeGroup cap m K) (base fuel : ℕ) (state : NodeGroupScanState) (f : ℕ)
    (vs : List (ℕ × List (RowView K))) (stop : ℕ) : Prop :=
  ∃ sv', SelAt lo (readVectors lo hi f vs).1 stop sv' ∧
    ∀ idx idx' : PrimaryKeyIndex K,
      ((readVectors lo hi f vs).2.flatMap seenKeys).foldlM (discardKey slotCap hash) idx =
        some idx' →
      scanNodeGroup slotCap hash pk T ⟨lo, hi⟩ ng base fuel state idx = some (sv', idx')

variable {base : ℕ} {ng : NodeGroup cap m K}

/-- The vector that starts at row `q` of a group, which is empty at the end of the group, and the
scans after it. -/
lemma scanNodeGroup_vector (hcap : 0 < cap) {idx idx' s q f fuel stop : ℕ} {sv : SelectionVector}
    {g0 g : ChunkedNodeGroup cap m K} {rows : List (RowView K)} {vs : List (ℕ × List (RowView K))}
    (hg0 : ng.chunkedGroups[idx]? = some g0) (hg : ng.chunkedGroups[idx']? = some g)
    (hidx : (if g0.numRows + g0.startRowIdx ≤ s + q then idx + 1 else idx) = idx')
    (hview : GroupView pk T s rows g) (hq : q ≤ rows.length)
    (hsmall : base + s + rows.length < 2 ^ 32) (hsel : SelAt lo f (s + q + base) sv)
    (hseen : SeesRecord lo hi (vectors cap (base + s + q) (rows.drop q) ++ vs))
    (hrest : ∀ q' f1 sv1, q' = q + min cap (rows.length - q) → SelAt lo f1 (s + q' + base) sv1 →
      SeesRecord lo hi (vectors cap (base + s + q') (rows.drop q') ++ vs) →
      ScansRest slotCap hash pk T lo hi ng base fuel ⟨idx', s + q', sv1⟩ f1
        (vectors cap (base + s + q') (rows.drop q') ++ vs) stop) :
    ScansRest slotCap hash pk T lo hi ng base (fuel + 1) ⟨idx, s + q, sv⟩ f
      (vectors cap (base + s + q) (rows.drop q) ++ vs) stop := by
  have hlen : ((rows.drop q).take cap).length = min cap (rows.length - q) := by
    rw [length_take, length_drop]
  have hcomm : base + s + q = s + q + base := by omega
  obtain ⟨rest, hrest_eq⟩ : ∃ rest, rest = vectors cap (base + s + (q + min cap (rows.length - q)))
    (rows.drop (q + min cap (rows.length - q))) ++ vs := ⟨_, rfl⟩
  -- reading the vectors is reading the next one and the rest
  have hnext : readVectors lo hi f (vectors cap (base + s + q) (rows.drop q) ++ vs) =
        readVectors lo hi f ((s + q + base, (rows.drop q).take cap) :: rest) ∧
      SeesRecord lo hi ((s + q + base, (rows.drop q).take cap) :: rest) := by
    by_cases hlt : q < rows.length
    · rw [vectors_drop hcap (base + s) hlt, cons_append, hcomm, hlen, ← hrest_eq] at hseen ⊢
      exact ⟨rfl, hseen⟩
    · obtain rfl : q = rows.length := by omega
      simp only [Nat.sub_self, Nat.min_zero, Nat.add_zero] at hrest_eq
      rw [← hrest_eq] at hseen ⊢
      rw [drop_length, take_nil, readVectors_nil_cons]
      refine ⟨rfl, fun v hv => ?_⟩
      rcases mem_cons.mp hv with rfl | hv
      · exact fun _ => .inr (by simp)
      · exact hseen v hv
  obtain ⟨sv1, out, hstep, hsel1, hout⟩ := scanSemiMask_step hcap hg0 hg hidx hview rfl hq
    (by omega) hsel fun v hv => hnext.2 v (List.mem_cons.mpr (.inl (List.mem_singleton.mp hv)))
  rw [hlen, Nat.add_assoc s q (min _ _)] at hsel1 hstep
  obtain ⟨sv', hsel', hscan⟩ := hrest _ _ sv1 rfl hsel1
    (hrest_eq ▸ fun v hv => hnext.2 v (List.mem_cons_of_mem _ hv))
  rw [← hrest_eq] at hsel' hscan
  have happend := readVectors_append lo hi [(s + q + base, (rows.drop q).take cap)] rest f
  rw [singleton_append, ← hnext.1] at happend
  refine ⟨sv', by rw [happend]; exact hsel', fun i i' hrun => ?_⟩
  rw [happend, flatMap_append, foldlM_append] at hrun
  obtain ⟨i1, hrun1, hrun2⟩ := Option.bind_eq_some_iff.mp hrun
  rw [scanNodeGroup, hstep]
  show (processScanOutput slotCap hash pk i _).bind
    (scanNodeGroup slotCap hash pk T _ ng base _ _) = _
  rw [processScanOutput_eq hout, hrun1]
  exact hscan i1 i' hrun2

/-- The scans of a node group, from row `q` of one of its groups on. -/
lemma scanNodeGroup_spec (hcap : 0 < cap) :
    ∀ (fuel : ℕ) (pre gs : List (ChunkedNodeGroup cap m K)) (g : ChunkedNodeGroup cap m K)
    (rows : List (RowView K)) (rss : List (List (RowView K))) (s q f : ℕ) (sv : SelectionVector),
    ng.chunkedGroups = pre ++ g :: gs → GroupView pk T s rows g →
    GroupsView pk T (s + rows.length) gs rss → q ≤ rows.length →
    rows.length - q + (rss.map List.length).sum + gs.length + 1 ≤ fuel →
    base + s + rows.length + (rss.map List.length).sum < 2 ^ 32 →
    SelAt lo f (s + q + base) sv →
    SeesRecord lo hi (vectors cap (base + s + q) (rows.drop q) ++
      groupVectors cap (base + s + rows.length) rss) →
    ScansRest slotCap hash pk T lo hi ng base fuel ⟨pre.length, s + q, sv⟩ f
      (vectors cap (base + s + q) (rows.drop q) ++ groupVectors cap (base + s + rows.length) rss)
      (base + s + rows.length + (rss.map List.length).sum) := by
  intro fuel
  induction fuel with
  | zero =>
    intro pre gs g rows rss s q f sv _ _ _ _ hfuel
    omega
  | succ fuel ih =>
    intro pre gs g rows rss s q f sv hgroups hview hviews hq hfuel hsmall hsel hseen
    have hg : ng.chunkedGroups[pre.length]? = some g := by
      rw [hgroups, getElem?_append_right le_rfl, Nat.sub_self, getElem?_cons_zero]
    have hstart := hview.start_eq
    have hnum := hview.numRows_eq
    by_cases hlt : q < rows.length
    · -- a vector of the same group
      refine scanNodeGroup_vector hcap hg hg (if_neg (by omega)) hview hq (by omega) hsel hseen
        fun q' f1 sv1 hq' hsel1 hseen1 => ?_
      exact ih pre gs g rows rss s q' f1 sv1 hgroups hview hviews (by omega) (by omega) hsmall hsel1
        hseen1
    · obtain rfl : q = rows.length := by omega
      rw [drop_length, vectors_nil, nil_append] at hseen ⊢
      cases gs with
      | nil =>
        -- the end of the node group
        cases rss with
        | cons rows' rss => exact hviews.elim
        | nil =>
          refine ⟨sv, hsel.mono (by simp; omega), fun idx idx' hrun => ?_⟩
          obtain rfl := Option.some.inj hrun
          have hnext : g.numRows + g.startRowIdx ≤ s + rows.length := by omega
          have hend : ng.chunkedGroups.length ≤ pre.length + 1 := by simp [hgroups]
          rw [scanNodeGroup, NodeGroup.scanSemiMask]
          simp only [hg, Option.bind_eq_bind, Option.bind_some, if_pos hnext, if_pos hend]
          rfl
      | cons g' gs =>
        cases rss with
        | nil => exact hviews.elim
        | cons rows' rss =>
          -- the first vector of the next group, which may be empty
          obtain ⟨hview', hviews'⟩ := hviews
          rw [List.map_cons, List.sum_cons] at hfuel hsmall ⊢
          rw [List.length_cons] at hfuel
          have hsplit : ng.chunkedGroups = (pre ++ [g]) ++ g' :: gs := by
            rw [hgroups, append_assoc, singleton_append]
          have hlen' : (pre ++ [g]).length = pre.length + 1 := by simp
          have hg' : ng.chunkedGroups[pre.length + 1]? = some g' := by
            rw [hsplit, getElem?_append_right (by omega), hlen', Nat.sub_self, getElem?_cons_zero]
          have hidx : (if g.numRows + g.startRowIdx ≤ s + rows.length then pre.length + 1
              else pre.length) = pre.length + 1 := if_pos (by omega)
          have hvs : groupVectors cap (base + s + rows.length) (rows' :: rss) =
              vectors cap (base + (s + rows.length) + 0) (rows'.drop 0) ++
                groupVectors cap (base + (s + rows.length) + rows'.length) rss := by
            rw [groupVectors, drop_zero, Nat.add_zero, ← Nat.add_assoc base]
          have hstop : base + s + rows.length + (rows'.length + (rss.map List.length).sum) =
              base + (s + rows.length) + rows'.length + (rss.map List.length).sum := by omega
          rw [hvs] at hseen ⊢
          rw [hstop]
          refine scanNodeGroup_vector hcap hg hg' hidx hview' (Nat.zero_le _) (by omega) hsel hseen
            fun q' f1 sv1 hq' hsel1 hseen1 => ?_
          have hscan := ih (pre ++ [g]) gs g' rows' rss (s + rows.length) q' f1 sv1 hsplit hview'
            hviews' (by omega) (by omega) (by omega) hsel1 hseen1
          rwa [hlen'] at hscan

/-- The rollback reads the vectors `readVectors` and discards the keys that are seen in them. -/
lemma scanIndexColumns_spec (hcap : 0 < cap) {nodeGroupSize : ℕ} :
    ∀ (groups : List (NodeGroup cap m K)) (views : List (ℕ × List (List (RowView K))))
    (nodeGroupIdx f : ℕ) (sv : SelectionVector),
    List.Forall₂ (NodeGroupView nodeGroupSize pk T) views groups →
    (nodeGroupIdx + groups.length) * nodeGroupSize < 2 ^ 32 →
    SelAt lo f (nodeGroupIdx * nodeGroupSize) sv →
    SeesRecord lo hi (tableVectors cap nodeGroupSize nodeGroupIdx views) →
    ∃ sv', ∀ idx idx' : PrimaryKeyIndex K,
      ((readVectors lo hi f (tableVectors cap nodeGroupSize nodeGroupIdx views)).2.flatMap
        seenKeys).foldlM (discardKey slotCap hash) idx = some idx' →
      scanIndexColumns slotCap hash pk nodeGroupSize T ⟨lo, hi⟩ groups nodeGroupIdx sv idx =
        some (sv', idx') := by
  intro groups
  induction groups with
  | nil =>
    intro views nodeGroupIdx f sv hviews _ _ _
    cases hviews
    refine ⟨sv, fun idx idx' hrun => ?_⟩
    obtain rfl := Option.some.inj hrun
    rfl
  | cons ng groups ih =>
    intro views nodeGroupIdx f sv hviews hsmall hsel hseen
    obtain ⟨view, views, hview, hrest, rfl⟩ := List.forall₂_cons_right_iff.mp hviews
    obtain ⟨start, rss⟩ := view
    obtain ⟨hgroups, hroom⟩ := hview
    rw [length_cons] at hsmall
    have hsucc : (nodeGroupIdx + 1) * nodeGroupSize =
      nodeGroupIdx * nodeGroupSize + nodeGroupSize := Nat.succ_mul ..
    have hle : (nodeGroupIdx + 1) * nodeGroupSize ≤
        (nodeGroupIdx + (groups.length + 1)) * nodeGroupSize :=
      Nat.mul_le_mul_right _ (by omega)
    have hsmall' : (nodeGroupIdx + 1 + groups.length) * nodeGroupSize < 2 ^ 32 := by
      rwa [Nat.add_assoc, Nat.add_comm 1]
    rw [tableVectors] at hseen ⊢
    have hseen1 : SeesRecord lo hi (groupVectors cap (nodeGroupIdx * nodeGroupSize + start) rss) :=
      fun v hv => hseen v (mem_append_left _ hv)
    have hseen2 : SeesRecord lo hi (tableVectors cap nodeGroupSize (nodeGroupIdx + 1) views) :=
      fun v hv => hseen v (mem_append_right _ hv)
    cases hng : ng.chunkedGroups with
    | nil =>
      -- an empty node group is skipped
      rw [hng] at hgroups
      cases rss with
      | cons rows rss => exact hgroups.elim
      | nil =>
        obtain ⟨sv', hscan⟩ := ih views (nodeGroupIdx + 1) f sv hrest hsmall'
          (hsel.mono (by omega)) hseen2
        refine ⟨sv', fun idx idx' hrun => ?_⟩
        rw [scanIndexColumns, hng]
        exact hscan idx idx' hrun
    | cons g gs =>
      have hsum := hgroups.sum_numRows
      rw [hng] at hgroups hsum
      cases rss with
      | nil => exact hgroups.elim
      | cons rows rss =>
        obtain ⟨hg, hgs⟩ := hgroups
        rw [List.map_cons, List.sum_cons] at hroom
        rw [List.map_cons, List.sum_cons, List.map_cons, List.sum_cons] at hsum
        have hvs : groupVectors cap (nodeGroupIdx * nodeGroupSize + start) (rows :: rss) =
            vectors cap (nodeGroupIdx * nodeGroupSize + start + 0) (rows.drop 0) ++
              groupVectors cap (nodeGroupIdx * nodeGroupSize + start + rows.length) rss := rfl
        rw [hvs] at hseen1
        have hfuel : rows.length - 0 + (rss.map List.length).sum + gs.length + 1 ≤ ng.scanFuel := by
          rw [NodeGroup.scanFuel, hng, List.map_cons, List.sum_cons, hsum, List.length_cons]
          omega
        -- the vectors of this node group, then those of the later ones
        have hscans : ScansRest slotCap hash pk T lo hi ng (nodeGroupIdx * nodeGroupSize)
            ng.scanFuel ⟨0, start + 0, sv⟩ f _ _ :=
          scanNodeGroup_spec hcap ng.scanFuel [] gs g rows rss start 0 f sv hng hg hgs
            (Nat.zero_le _) hfuel (by omega) (hsel.mono (by omega)) hseen1
        obtain ⟨sv1, hsel1, hscan1⟩ := hscans
        obtain ⟨sv', hscan⟩ := ih views (nodeGroupIdx + 1) _ sv1 hrest hsmall'
          (hsel1.mono (by omega)) hseen2
        refine ⟨sv', fun idx idx' hrun => ?_⟩
        rw [hvs, readVectors_append, flatMap_append, foldlM_append] at hrun
        obtain ⟨idx₁, hrun1, hrun2⟩ := Option.bind_eq_some_iff.mp hrun
        have hstep := hscan1 idx idx₁ hrun1
        rw [scanIndexColumns, hng]
        show (scanNodeGroup slotCap hash pk T ⟨lo, hi⟩ ng (nodeGroupIdx * nodeGroupSize) ng.scanFuel
          ⟨0, g.startRowIdx, sv⟩ idx).bind _ = _
        rw [hg.start_eq]
        rw [Nat.add_zero] at hstep
        rw [hstep]
        exact hscan idx₁ idx' hrun2

end Scan

/-! ### The rollback of a batch -/

section Rollback

variable {cap m : ℕ} {pk : Fin m} {T : Transaction}

/-- Every lookup returns what it returned, and the local entries are the same. -/
def Unchanged (slotCap : ℕ) (hash : K → ℕ) (idx idx' : PrimaryKeyIndex K) : Prop :=
  (∀ key isVisible, idx'.lookup slotCap hash key isVisible =
    idx.lookup slotCap hash key isVisible) ∧ idx'.entries = idx.entries

/-- The keys of the rows that the rollback of the rows `[lo, hi)` reads. -/
def rollbackKeys (cap nodeGroupSize lo hi : ℕ) (views : List (ℕ × List (List (RowView K)))) :
    List K :=
  (readVectors lo hi 0 (tableVectors cap nodeGroupSize 0 views)).2.flatMap seenKeys

/-- No row that is read has the key of an older entry, and of every key that the batch has inserted
enough rows are read. -/
def RollbackOk (keys : List K) (older batch : Multiset (K × ℕ)) : Prop :=
  (∀ key ∈ keys, ∀ e ∈ older, (key == e.1) = false) ∧
    ∀ e ∈ batch, (e.1 == e.1) = true ∧ batch.countP (fun x => e.1 == x.1) ≤ keys.countP (e.1 == ·)

/-- Discarding keys restores the index exactly under `RollbackOk`. -/
lemma discardKeys_restores [PartialEquivBEq K] (hslot : 4 ≤ slotCap)
    (heq : ∀ a b : K, (a == b) = true → hash a = hash b) {idx idx₁ : PrimaryKeyIndex K}
    {older : ℕ → ℕ → List (K × ℕ)} {M b : ℕ → Multiset (K × ℕ)}
    (hbase : Layered slotCap hash idx older M (fun _ => 0) idx)
    (h : Layered slotCap hash idx older M b idx₁) (hM : total M = idx.entries) (keys : List K) :
    ∃ idx2, keys.foldlM (discardKey slotCap hash) idx₁ = some idx2 ∧
      (RollbackOk keys idx.entries (total b) → Unchanged slotCap hash idx idx2) ∧
      ((∀ e ∈ idx.entries, e ∉ total b) → Unchanged slotCap hash idx idx2 →
        RollbackOk keys idx.entries (total b)) := by
  by_cases hkeys : ∃ key ∈ keys, ∃ e ∈ total M, (key == e.1) = true
  · -- an older entry is lost
    obtain ⟨idx2, e, M', hrun, hMe, hle⟩ := discardKeys_older hslot heq keys h hkeys
    refine ⟨idx2, hrun, fun hok => ?_, fun hfresh hsame => ?_⟩
    · obtain ⟨key, hkey, x, hx, hmatch⟩ := hkeys
      have hne := hok.1 key hkey x (hM ▸ hx)
      rw [hmatch] at hne
      cases hne
    · rw [hsame.2, ← hM, hMe, ← singleton_add, add_comm] at hle
      have hmem : e ∈ total b := singleton_le.mp (le_of_add_le_add_left hle)
      refine absurd hmem (hfresh e ?_)
      rw [← hM, hMe]
      exact mem_cons_self _ _
  -- the keys are those of the batch only
  · have hnone : ∀ key ∈ keys, ∀ e ∈ total M, (key == e.1) = false := by
      intro key hkey e he
      by_contra hne
      exact hkeys ⟨key, hkey, e, he, Bool.not_eq_false _ ▸ hne⟩
    obtain ⟨idx2, b', hrun, h', hle, hcount, hirrefl⟩ := discardKeys_batch hslot heq keys h hnone
    refine ⟨idx2, hrun, fun hok => ?_, fun _ hsame => ⟨hM ▸ hnone, fun e he => ?_⟩⟩
    · -- nothing of the batch is left
      have hzero : total b' = 0 := by
        refine eq_zero_of_forall_notMem fun e he => ?_
        obtain ⟨hrefl, henough⟩ := hok.2 e (mem_of_le hle he)
        have hpos : 0 < (total b').countP fun x => e.1 == x.1 := countP_pos.mpr ⟨e, he, hrefl⟩
        rw [hcount] at hpos
        omega
      refine ⟨fun key isVisible => h'.lookup hslot heq hbase key isVisible ?_, ?_⟩
      · rw [hzero]
        simp
      · rw [h'.entries_eq, hzero, add_zero, hM]
    -- then each key was discarded once for every entry
    · have hzero : total b' = 0 := by
        have hentries := h'.entries_eq
        rw [hsame.2, ← hM] at hentries
        exact left_eq_add.mp hentries
      rw [hzero] at hirrefl hcount
      refine ⟨?_, ?_⟩
      · by_contra hne
        exact absurd (hirrefl e he (Bool.not_eq_true _ ▸ hne)) (notMem_zero e)
      · have hk := hcount e.1
        rw [countP_zero] at hk
        omega

/-- The keys that are read when the records are undone in this order. At every call the node groups
have fewer than `2 ^ 32` offsets, and the transaction sees the rows that it undoes, as far as their
vectors have insertions. -/
inductive ReadsKeys (pk : Fin m) (nodeGroupSize chunkCap : ℕ) (T : Transaction) :
    List (NodeGroup cap m K) → List InsertInfo → List K → Prop
  | nil (groups : List (NodeGroup cap m K)) : ReadsKeys pk nodeGroupSize chunkCap T groups [] []
  | cons {groups groups' : List (NodeGroup cap m K)} {record : InsertInfo}
      {records : List InsertInfo} {views : List (ℕ × List (List (RowView K)))} {keys : List K}
      (hviews : List.Forall₂ (NodeGroupView nodeGroupSize pk T) views groups)
      (hsmall : groups.length * nodeGroupSize < 2 ^ 32)
      (hseen : SeesRecord (record.startOffset nodeGroupSize)
        (record.startOffset nodeGroupSize + record.numRows)
        (tableVectors cap nodeGroupSize 0 views))
      (hrows : rollbackRows chunkCap groups record = some groups')
      (hrest : ReadsKeys pk nodeGroupSize chunkCap T groups' records keys) :
      ReadsKeys pk nodeGroupSize chunkCap T groups (record :: records)
        (rollbackKeys cap nodeGroupSize (record.startOffset nodeGroupSize)
          (record.startOffset nodeGroupSize + record.numRows) views ++ keys)

/-- Undoing the records discards the keys that are read. -/
lemma ReadsKeys.rollback {nodeGroupSize chunkCap : ℕ} {groups : List (NodeGroup cap m K)}
    {records : List InsertInfo} {keys : List K} (hcap : 0 < cap)
    (h : ReadsKeys pk nodeGroupSize chunkCap T groups records keys) {idx idx' : PrimaryKeyIndex K}
    (hkeys : keys.foldlM (discardKey slotCap hash) idx = some idx') :
    ∃ groups', records.foldlM (rollbackInsert slotCap hash pk nodeGroupSize chunkCap T)
      ⟨groups, idx⟩ = some ⟨groups', idx'⟩ := by
  induction h generalizing idx with
  | nil groups =>
    obtain rfl := Option.some.inj hkeys
    exact ⟨groups, rfl⟩
  | @cons groups groups' record records views keys hviews hsmall hseen hrows _ ih =>
    rw [foldlM_append] at hkeys
    obtain ⟨idx₁, hread, hkeys⟩ := Option.bind_eq_some_iff.mp hkeys
    have hsel : SelAt (record.startOffset nodeGroupSize) 0 (0 * nodeGroupSize)
        (newSelVector cap) := .inl ⟨rfl, rfl⟩
    obtain ⟨sv', hscan⟩ := scanIndexColumns_spec hcap groups views 0 0 (newSelVector cap) hviews
      (by simpa using hsmall) hsel hseen
    obtain ⟨groups₁, hrun⟩ := ih hkeys
    have hpk : rollbackPKIndexInsert slotCap hash pk nodeGroupSize ⟨groups, idx⟩ T record.startRow
        record.numRows record.nodeGroupIdx = some ⟨groups, idx₁⟩ :=
      Option.bind_eq_some_iff.mpr ⟨_, hscan idx idx₁ hread, rfl⟩
    have hstep : rollbackInsert slotCap hash pk nodeGroupSize chunkCap T ⟨groups, idx⟩ record =
        some ⟨groups', idx₁⟩ :=
      Option.bind_eq_some_iff.mpr ⟨_, hpk, Option.bind_eq_some_iff.mpr ⟨_, hrows, rfl⟩⟩
    exact ⟨groups₁, Fold.foldlM_cons_some.mpr ⟨_, hstep, hrun⟩⟩

omit [Inhabited K] [BEq K] in
/-- The records of a transaction can be undone: each covers the last rows of its node group. -/
theorem exists_readsKeys {nodeGroupSize chunkCap : ℕ} (hcap : 0 < cap)
    (hid : StampOk (some (.active T.id))) (pk : Fin m) (records : List InsertInfo)
    {groups : List (NodeGroup cap m K)} {contents : ℕ → ℕ × List (StampedRow m K)}
    (h : HoldsTable nodeGroupSize chunkCap T contents groups)
    (hsmall : groups.length * nodeGroupSize < 2 ^ 32) (hundo : Undoable T contents records) :
    ∃ keys, ReadsKeys pk nodeGroupSize chunkCap T groups records keys := by
  induction records generalizing groups contents with
  | nil => exact ⟨[], .nil groups⟩
  | cons record records ih =>
    obtain ⟨base, rest, new, hcontent, hstart, hnum, hundo⟩ := hundo
    obtain ⟨views, hviews, hseen⟩ := h.views hcap pk record hcontent hstart hnum
    obtain ⟨groups', hrows, h', hle⟩ := h.rollbackRows hcap hid record hcontent hstart hnum
    obtain ⟨keys, hkeys⟩ := ih h'
      ((Nat.mul_le_mul_right nodeGroupSize hle).trans_lt hsmall) hundo
    exact ⟨_, .cons hviews hsmall hseen hrows hkeys⟩

/-- **The index after a rollback.** After the insertions of a batch and the rollback of its records
the primary key index is as it was before the batch when `RollbackOk` holds, and, if no entry of the
batch was there before, only then. -/
theorem rollback_restores [PartialEquivBEq K] (hcap : 0 < cap) (hslot : 4 ≤ slotCap)
    (heq : ∀ a b : K, (a == b) = true → hash a = hash b) {nodeGroupSize chunkCap : ℕ}
    {groups : List (NodeGroup cap m K)} (records : List InsertInfo) {keys : List K}
    (hkeys : ReadsKeys pk nodeGroupSize chunkCap T groups records.reverse keys)
    {idx : PrimaryKeyIndex K} (hidx : PrimaryKeyIndex.Rep slotCap hash idx)
    (calls : List (InsertCall hash)) :
    ∃ idx₁ batch table', idx.runInserts slotCap hash calls = some idx₁ ∧
      idx₁.entries = idx.entries + batch ∧
      batch ≤ (calls.flatMap InsertCall.entries : Multiset (K × ℕ)) ∧
      rollback slotCap hash pk nodeGroupSize chunkCap T ⟨groups, idx₁⟩ records = some table' ∧
      (RollbackOk keys idx.entries batch → Unchanged slotCap hash idx table'.pkIndex) ∧
      ((∀ e ∈ idx.entries, e ∉ batch) → Unchanged slotCap hash idx table'.pkIndex →
        RollbackOk keys idx.entries batch) := by
  obtain ⟨older, M, hbase, hM⟩ := hidx.layered
  obtain ⟨idx₁, b, d, hinserts, hd, h, htotal⟩ := Layered.runInserts hslot heq calls hbase
  have hzero : total (fun _ => (0 : Multiset (K × ℕ))) = 0 := by simp [total]
  rw [hzero, zero_add] at htotal
  obtain ⟨idx2, hdiscard, hok⟩ := discardKeys_restores hslot heq hbase h hM keys
  obtain ⟨groups', hrollback⟩ := hkeys.rollback hcap hdiscard
  refine ⟨idx₁, d, ⟨groups', idx2⟩, hinserts, ?_, hd, hrollback, ?_⟩
  · rw [h.entries_eq, hM, htotal]
  · rw [← htotal]
    exact hok

end Rollback

/-! ### Batches in a table of one node group -/

/-- A primary key index without entries. -/
def emptyIndex : PrimaryKeyIndex ℕ := ⟨fun _ => ⟨InMemHashIndex.create 14, 0, fun _ _ => none⟩⟩

/-- A writer that starts after the first commit. -/
def writer : Transaction :=
  ⟨startTransactionID + 1, 1, startTransactionID_add_one_lt, by decide, one_lt_start⟩

lemma emptyIndex_rep : PrimaryKeyIndex.Rep 14 id emptyIndex ∧ emptyIndex.entries = 0 := by
  obtain ⟨chains, hrep⟩ := allocateSlots_nil 14 (id : ℕ → ℕ) 0
  have hcontent : ∀ n, content (fun _ => ([] : List (ℕ × ℕ))) n = 0 := by
    simp [content]
  refine ⟨fun pos _ => ⟨chains, _, _, hrep, fun e he => ?_⟩, ?_⟩
  · rw [hcontent] at he
    exact absurd he (notMem_zero e)
  · have hlocal : (create 14 : InMemHashIndex ℕ).entries = 0 := (entries_eq hrep).trans (hcontent _)
    show total (fun _ => (create 14 : InMemHashIndex ℕ).entries) = 0
    rw [hlocal, total, Finset.sum_const_zero]

/-- The rows that the writer has inserted. -/
def writtenRows : List (StampedRow 1 ℕ) :=
  stamped (.active writer.id) [fun _ => 7] ++ stamped (.active writer.id) [fun _ => 8]

/-- Both keys of a group with these rows are read when the second record is undone. -/
lemma readsKeys_writtenRows {g : ChunkedNodeGroup 2048 1 ℕ} (hg : MemRep 2048 0 writtenRows g) :
    ∃ keys, ReadsKeys 0 (2 ^ 17) 2048 writer [(⟨[g], 2⟩ : NodeGroup 2048 1 ℕ)]
      [⟨1, 1, 0⟩, ⟨0, 1, 0⟩] ([7, 8] ++ keys) := by
  have hid : StampOk (some (.active writer.id)) := ⟨by decide, by decide⟩
  have hok : StampsOk writtenRows := by
    intro row hrow
    simp only [writtenRows, stamped, List.map_cons, List.map_nil, List.cons_append,
      List.nil_append, List.mem_cons, List.not_mem_nil, or_false] at hrow
    rcases hrow with rfl | rfl <;> exact hid
  have hholds : HoldsTable (2 ^ 17) 2048 writer
      (fun j => if j = 0 then (0, writtenRows) else (0, [])) [(⟨[g], 2⟩ : NodeGroup 2048 1 ℕ)] := by
    intro j
    cases j with
    | zero =>
      have hlagged := hg.laggedRep.startLag (Lag.rollingBack (· = .active writer.id))
      exact ⟨0, [], [], [g], [writtenRows], ⟨rfl, .none, MemsRep.snoc (.nil _) (by simp) hlagged
        (by decide), rfl, .inl (by simp [writtenRows, stamped])⟩, rfl, by simpa using hok,
        show 2 ≤ 2 ^ 17 by decide⟩
    | succ j => rfl
  -- what is left after the second record
  obtain ⟨groups', hrows, h', hle⟩ := hholds.rollbackRows (by decide) hid ⟨1, 1, 0⟩ rfl rfl rfl
  obtain ⟨keys, hkeys⟩ := exists_readsKeys (by decide) hid 0 [⟨0, 1, 0⟩] h'
    ((Nat.mul_le_mul_right _ hle).trans_lt (by simp)) ⟨0, [], [fun _ => 7], rfl, rfl, rfl, trivial⟩
  have hview : GroupView 0 writer 0 [(7, some true), (8, some true)] g := by
    have hread : ReadRep writer.id 0 writtenRows g := hg.toGroupRep.readRep
    have hgroup := hread.view hok 0 writer
    rw [hg.toGroupRep.viewRows_eq (by decide)] at hgroup
    exact hgroup
  have hvectors : tableVectors 2048 (2 ^ 17) 0 [(0, [[((7 : ℕ), some true), (8, some true)]])] =
      [(0, [(7, some true), (8, some true)])] := by
    simp [tableVectors, groupVectors, vectors_of_ne]
  have hviews : List.Forall₂ (NodeGroupView (2 ^ 17) 0 writer)
      [(0, [[(7, some true), (8, some true)]])] [(⟨[g], 2⟩ : NodeGroup 2048 1 ℕ)] :=
    .cons ⟨⟨hview, trivial⟩, by decide⟩ .nil
  have hkeys₁ : rollbackKeys 2048 (2 ^ 17) (InsertInfo.startOffset (2 ^ 17) ⟨1, 1, 0⟩)
      (InsertInfo.startOffset (2 ^ 17) ⟨1, 1, 0⟩ + 1)
      [(0, [[((7 : ℕ), some true), (8, some true)]])] = [7, 8] := by
    rw [rollbackKeys, hvectors]
    decide
  refine ⟨keys, hkeys₁ ▸ .cons hviews (by simp) (fun v hv _ => .inl ?_) hrows hkeys⟩
  rw [hvectors] at hv
  obtain rfl := List.mem_singleton.mp hv
  exact ⟨_, List.mem_cons_self, rfl⟩

/-- The writer inserts nodes with keys 7 and 8 into an empty table, one after the other, and rolls
both back. -/
theorem rollback_restores_two :
    ∃ (g₁ g₂ : ChunkedNodeGroup 2048 1 ℕ) (idx₁ : PrimaryKeyIndex ℕ) (table' : NodeTable 2048 1 ℕ),
      (ChunkedNodeGroup.create 2048 0).append writer.id (fun _ => [7]) 0 1 = some (1, g₁) ∧
      g₁.append writer.id (fun _ => [8]) 0 1 = some (1, g₂) ∧
      emptyIndex.runInserts 14 id [.insert 7 0 fun _ => true, .insert 8 1 fun _ => true]
        = some idx₁ ∧
      rollback 14 id 0 (2 ^ 17) 2048 writer ⟨[⟨[g₂], 2⟩], idx₁⟩ [⟨0, 1, 0⟩, ⟨1, 1, 0⟩]
        = some table' ∧
      Unchanged 14 id emptyIndex table'.pkIndex := by
  have hid : StampOk (some (.active writer.id)) := ⟨by decide, by decide⟩
  obtain ⟨g₁, happend₁, hg₁⟩ := ChunkedNodeGroup.append_spec (by decide)
    (ChunkedNodeGroup.create_rep 2048 0 : MemRep 2048 0 [] (_ : ChunkedNodeGroup 2048 1 ℕ))
    hid (fun _ => [7]) 0 [fun _ => 7] (fun _ => rfl) (by decide)
  obtain ⟨g₂, happend₂, hg₂⟩ := ChunkedNodeGroup.append_spec (by decide) hg₁ hid (fun _ => [8]) 0
    [fun _ => 8] (fun _ => rfl) (by decide)
  obtain ⟨keys, hkeys⟩ := readsKeys_writtenRows hg₂
  obtain ⟨idx₁, batch, table', hinserts, -, hbatch, hrollback, hok, -⟩ :=
    rollback_restores (by decide) (by decide) (fun a b h => eq_of_beq h)
      [⟨0, 1, 0⟩, ⟨1, 1, 0⟩] hkeys emptyIndex_rep.1
      [.insert 7 0 fun _ => true, .insert 8 1 fun _ => true]
  refine ⟨g₁, g₂, idx₁, table', happend₁, happend₂, hinserts, hrollback, hok ⟨?_, fun e he => ?_⟩⟩
  · rw [emptyIndex_rep.2]
    exact fun key _ e he => absurd he (notMem_zero e)
  · refine ⟨beq_self_eq_true _, (countP_le_of_le _ hbatch).trans ?_⟩
    have hmem := mem_of_le hbatch he
    rw [List.countP_append]
    refine Nat.le_add_right_of_le ?_
    have hcases : e = (7, 0) ∨ e = (8, 1) := by simpa [InsertCall.entries] using hmem
    rcases hcases with rfl | rfl <;> decide

/-- A committed node with key 1, and the entry of its key. -/
def committedTable : Option (NodeTable 2048 1 ℕ) := do
  let ng ← NodeGroup.empty.runBatch 2048
    ⟨startTransactionID, [fun _ => 1], some 1, Nat.le_refl _, startTransactionID_lt, one_isCommitTS⟩
  let (pkIndex, _) ← emptyIndex.insert 14 id 1 0 fun _ => true
  return ⟨[ng], pkIndex⟩

/-- The writer inserts a node with key 2 and rolls it back. -/
def rolledBackTable : Option (NodeTable 2048 1 ℕ) := do
  let table ← committedTable
  let ng ← table.nodeGroups.head?
  let ng ← ng.append 2048 writer.id (fun _ => [2]) 0 1
  let (pkIndex, _) ← table.pkIndex.insert 14 id 2 1 fun _ => true
  rollback 14 id 0 (2 ^ 17) 2048 writer ⟨[ng], pkIndex⟩ [⟨1, 1, 0⟩]

/-- The rollback of the node with key 2 removes the entry of the committed node with key 1, which
is in the same vector. -/
theorem rollback_committed :
    (committedTable.bind fun table => table.pkIndex.lookup 14 id 1 fun _ => true) =
        some (some 0) ∧
      (rolledBackTable.bind fun table => table.pkIndex.lookup 14 id 1 fun _ => true) =
        some none := by
  decide +kernel

end NodeTable

end Ladybug
