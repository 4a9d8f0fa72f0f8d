import Mathlib.Data.List.Pairwise
import Ladybug.Storage.Equiv.WriteLog

/-!
# Correctness of the updates of a column chunk

`UpdateRelated` says that an `UpdateStore` stands for a `WriteLog`: the chains are the versions of
the log, and the undo buffers point at exactly the versions of the running transactions. Every
action keeps it (`update_step_related`), so what the code reads after any interleaving of
transactions is what the log says.
-/

namespace Ladybug

open List Function TransactionManager VectorUpdateInfo UpdateInfo
open Option (bind_eq_some_iff map_eq_some_iff)
open RowVersion (toInfo)
open UpdateInfo (chain)
open UpdateStore (logStep)
open WriteLog (step)
open VectorUpdateInfo (ptr)

variable {V : Type}

/-- A version without its address. -/
def VectorUpdateInfo.erase (info : VectorUpdateInfo V) : VectorUpdateInfo V :=
  { info with ptr := 0 }

/-- The address and the version word. -/
def VectorUpdateInfo.key (info : VectorUpdateInfo V) : ℕ × ℕ := (info.ptr, info.version)

/-- The store stands for the log. -/
structure UpdateRelated (cap : ℕ) (h : WriteLog V) (s : UpdateStore V) : Prop where
  mgr : s.mgr = h.mgr
  ok : h.Ok
  chains : ∀ v, (s.info.chain v).map erase = (versions cap v h.writes).map toInfo
  ptr_nodup : ∀ v, ((s.info.chain v).map ptr).Nodup
  ptr_lt : ∀ v, ∀ info ∈ s.info.chain v, info.ptr < s.info.nextPtr
  /-- a record points at a version of its running transaction -/
  pointsAt : ∀ id, ∀ r ∈ s.undoBuffer id, h.mgr.isActive id = true ∧ r.version = id ∧
    (r.vectorUpdateInfo, id) ∈ (s.info.chain r.vectorIdx).map VectorUpdateInfo.key
  /-- and every such version has a record -/
  recorded : ∀ v p id, (p, id) ∈ (s.info.chain v).map VectorUpdateInfo.key →
    h.mgr.isActive id = true → ⟨v, p, id⟩ ∈ s.undoBuffer id

lemma updateRelated_init (cap : ℕ) : UpdateRelated cap (.init : WriteLog V) .init where
  mgr := rfl
  ok := WriteLog.ok_init
  chains v := by simp [UpdateStore.init, chain, WriteLog.init, versions]
  ptr_nodup v := by simp [UpdateStore.init, chain]
  ptr_lt v := by simp [UpdateStore.init, chain]
  pointsAt id := by simp [UpdateStore.init]
  recorded v := by simp [UpdateStore.init, chain]

/-! ### Reads -/

lemma readChain_map_erase (T : Transaction) (c : List (VectorUpdateInfo V)) (i : ℕ) :
    readChain T (c.map erase) i = readChain T c i := by
  induction c with
  | nil => rfl
  | cons info c ih =>
    rw [map_cons, readChain_cons, readChain_cons, ih]
    rfl

variable {cap : ℕ} {h : WriteLog V} {s : UpdateStore V}

/-- Related states read the same. -/
lemma UpdateRelated.readRow (hrel : UpdateRelated cap h s) (T : Transaction) (row : ℕ) :
    s.info.readRow cap T row = h.read T row := by
  rw [UpdateInfo.readRow, ← readChain_map_erase, hrel.chains,
    readChain_versions hrel.ok.ordered, WriteLog.read_eq hrel.ok.ordered]

/-! ### The versions of a running transaction -/

variable {id row ts v : ℕ} {T : Transaction} {a : UpdateAction V} {mgr : TransactionManager}
  {info own : VectorUpdateInfo V} {α : Type}

/-- The word of a version is the id of a running transaction when the version is that
transaction's, and only then. -/
lemma WriteLog.Ok.version_eq_iff (ho : h.Ok) (hact : h.mgr.isActive id = true)
    {u : RowVersion V} (hu : u ∈ versions cap v h.writes) : u.toInfo.version = id ↔ u.id = id := by
  obtain ⟨T, hT, rfl⟩ := isActive_iff.mp hact
  obtain ⟨⟨w, hw, hid, -, hc⟩, -⟩ := mem_versions ho.ordered hu
  have hTid := (h.mgr.active_le T hT).1
  simp only [toInfo, ← hc, ← hid]
  cases hcc : w.commitTS with
  | none => rfl
  | some c =>
    have hlt := (ho.ordered.committed_lt w hw c hcc).2
    rw [Option.getD_some]
    constructor
    · intro; omega
    · intro he
      have := (ho.own hT hw he).1
      simp [hcc] at this

section

variable (hrel : UpdateRelated cap h s)

include hrel

section

variable (hact : h.mgr.isActive id = true)

include hact

lemma UpdateRelated.own_pairwise (v : ℕ) :
    (s.info.chain v).Pairwise fun a b => a.version = id → b.version ≠ id := by
  have hpair : ((versions cap v h.writes).map toInfo).Pairwise
      fun a b => a.version = id → b.version ≠ id := by
    rw [pairwise_map]
    refine (pairwise_map.mp (versions_nodup cap v h.writes)).imp_of_mem
      fun {a b} ha hb hne h1 h2 => hne ?_
    rw [(hrel.ok.version_eq_iff hact ha).mp h1, (hrel.ok.version_eq_iff hact hb).mp h2]
  rw [← hrel.chains] at hpair
  exact pairwise_map.mp hpair

/-- A transaction has one version per vector. -/
lemma UpdateRelated.own_unique {a b : VectorUpdateInfo V} (ha : a ∈ s.info.chain v)
    (hb : b ∈ s.info.chain v) (hva : a.version = id) (hvb : b.version = id) : a = b := by
  have hpair : (s.info.chain v).Pairwise fun a b => a.version = id → b.version = id → a = b :=
    (hrel.own_pairwise hact v).imp fun hab h1 h2 => absurd h2 (hab h1)
  have : Std.Symm fun a b : VectorUpdateInfo V => a.version = id → b.version = id → a = b :=
    ⟨fun a b hab h1 h2 => (hab h2 h1).symm⟩
  exact hpair.forall_of_forall (fun _ _ _ _ => rfl) ha hb hva hvb

/-- In a chain, the address of a version of a running transaction marks exactly that version. -/
lemma UpdateRelated.ptr_eq_iff
    (hown : own ∈ s.info.chain v) (hid : own.version = id) (hinfo : info ∈ s.info.chain v) :
    info.ptr = own.ptr ↔ info.version = id := by
  constructor
  · intro hp
    rw [inj_on_of_nodup_map (hrel.ptr_nodup v) hinfo hown hp, hid]
  · intro hv
    rw [hrel.own_unique hact hinfo hown hv hid]

lemma UpdateRelated.exists_own_iff (v : ℕ) :
    (∃ info ∈ s.info.chain v, info.version = id) ↔
      id ∈ (versions cap v h.writes).map RowVersion.id := by
  have hmem : (∃ info ∈ s.info.chain v, info.version = id) ↔
      ∃ info ∈ (versions cap v h.writes).map toInfo, info.version = id := by
    rw [← hrel.chains]
    simp [erase]
  rw [hmem, mem_map]
  simp only [mem_map, exists_exists_and_eq_and]
  constructor
  · rintro ⟨u, hu, hv⟩
    exact ⟨u, hu, (hrel.ok.version_eq_iff hact hu).mp hv⟩
  · rintro ⟨u, hu, hv⟩
    exact ⟨u, hu, (hrel.ok.version_eq_iff hact hu).mpr hv⟩

end

lemma UpdateRelated.version_le (hinfo : info ∈ s.info.chain v) :
    info.version ≤ h.mgr.lastTransactionID := by
  have hmem : info.erase ∈ (versions cap v h.writes).map toInfo := by
    rw [← hrel.chains]
    exact mem_map_of_mem hinfo
  obtain ⟨u, hu, heq⟩ := mem_map.mp hmem
  have hver : info.version = u.toInfo.version := by rw [heq]; rfl
  obtain ⟨⟨w, hw, hid, -, hc⟩, -⟩ := mem_versions hrel.ok.ordered hu
  rw [hver]
  simp only [toInfo, ← hc, ← hid]
  cases hcc : w.commitTS with
  | none => exact (hrel.ok.startTS_le hw).2
  | some c =>
    have h1 := (hrel.ok.ordered.committed_lt w hw c hcc).2
    have h2 := h.mgr.start_le
    rw [Option.getD_some]
    omega

/-! ### Update -/

/-- The conflicts are those of the log. -/
lemma UpdateRelated.conflict_iff (hT : T ∈ h.mgr.activeTransactions) (row : ℕ) :
    h.conflict T row = true ↔
      ∃ info ∈ s.info.chain (row / cap), info.conflictsWith T (row % cap) := by
  rw [WriteLog.conflict_iff hrel.ok cap hT, ← hrel.chains]
  simp only [mem_map, exists_exists_and_eq_and]
  rfl

lemma UpdateRelated.resize (v : ℕ) :
    UpdateRelated cap h { s with info := s.info.getOrCreateUpdateNode v } where
  mgr := hrel.mgr
  ok := hrel.ok
  chains u := by rw [chain_getOrCreateUpdateNode]; exact hrel.chains u
  ptr_nodup u := by rw [chain_getOrCreateUpdateNode]; exact hrel.ptr_nodup u
  ptr_lt u := by rw [chain_getOrCreateUpdateNode]; exact hrel.ptr_lt u
  pointsAt id r hr := by rw [chain_getOrCreateUpdateNode]; exact hrel.pointsAt id r hr
  recorded u := by rw [chain_getOrCreateUpdateNode]; exact hrel.recorded u

/-- A conflicting update changes no version. -/
lemma update_conflict
    (hT : T ∈ h.mgr.activeTransactions) (value : V) (hconf : h.conflict T row = true) :
    s.update cap T row value =
      ({ s with info := s.info.getOrCreateUpdateNode (row / cap) }, .error updateConflict) := by
  have herr := findVersion_error ((hrel.conflict_iff hT row).mp hconf) none
  unfold UpdateStore.update UpdateInfo.update
  simp only [chain_getOrCreateUpdateNode, herr]

end

lemma map_map_of_eq {β : Type} {f : α → α} {g : α → β} {l : List α}
    (hfg : ∀ a ∈ l, g (f a) = g a) : (l.map f).map g = l.map g := by
  rw [map_map]
  exact map_congr_left hfg

/-- What a successful update does to the chain of the row's vector. -/
structure ChainUpdated (cap : ℕ) (ws : List (Write V)) (w : Write V) (p nextPtr : ℕ)
    (c c' : List (VectorUpdateInfo V)) : Prop where
  map_erase : c'.map erase = (insertWrite cap (versions cap (w.row / cap) ws) w).map toInfo
  ptr_nodup : (c'.map ptr).Nodup
  ptr_lt : ∀ info ∈ c', info.ptr < nextPtr
  mem_key : ∀ k, k ∈ c'.map VectorUpdateInfo.key ↔ k = (p, w.id) ∨ k ∈ c.map VectorUpdateInfo.key

section

variable (hrel : UpdateRelated cap h s) {value : V}

include hrel

/-- The transaction has a version of the vector and writes to it. -/
lemma UpdateRelated.chainUpdated_own (hact : h.mgr.isActive T.id = true)
    (hown : own ∈ s.info.chain (row / cap)) (hid : own.version = T.id) :
    ChainUpdated cap h.writes ⟨T.id, T.startTS, row, value, none⟩ own.ptr s.info.nextPtr
      (s.info.chain (row / cap)) ((s.info.chain (row / cap)).map fun info =>
        if info.ptr = own.ptr then
          { info with rows := writeRow (row % cap) value info.rows }
        else info) := by
  have hptr : ∀ info ∈ s.info.chain (row / cap), (if info.ptr = own.ptr then
      { info with rows := writeRow (row % cap) value info.rows }
      else info).ptr = info.ptr := fun info _ => by split_ifs <;> rfl
  have hkey : ∀ info ∈ s.info.chain (row / cap), (if info.ptr = own.ptr then
      { info with rows := writeRow (row % cap) value info.rows }
      else info).key = info.key := fun info _ => by split_ifs <;> rfl
  -- the write on a version without its address
  let write : VectorUpdateInfo V → VectorUpdateInfo V := fun e =>
    if e.version = T.id then
      { e with rows := writeRow (row % cap) value e.rows } else e
  refine ⟨?_, ?_, ?_, ?_⟩
  · have hmem := (hrel.exists_own_iff hact (row / cap)).mp ⟨own, hown, hid⟩
    rw [insertWrite, if_pos hmem, map_map, map_map]
    calc (s.info.chain (row / cap)).map _
        = ((s.info.chain (row / cap)).map erase).map write := by
          rw [map_map]
          refine map_congr_left fun info hinfo => ?_
          have hiff := hrel.ptr_eq_iff hact hown hid hinfo
          by_cases hv : info.version = T.id
          · simp [write, erase, hv, hiff.mpr hv]
          · have hp : ¬info.ptr = own.ptr := fun hp => hv (hiff.mp hp)
            simp [write, erase, hv, hp]
      _ = ((versions cap (row / cap) h.writes).map toInfo).map write := by
          rw [hrel.chains]
      _ = _ := by
          rw [map_map]
          refine map_congr_left fun u hu => ?_
          have hiff := hrel.ok.version_eq_iff hact hu
          by_cases hv : u.id = T.id
          · simp only [write, Function.comp, if_pos (hiff.mpr hv), RowVersion.write, if_pos hv]
            rfl
          · simp [write, Function.comp, if_neg (fun hp => hv (hiff.mp hp)), RowVersion.write, hv]
  · rw [map_map_of_eq hptr]
    exact hrel.ptr_nodup _
  · intro info hinfo
    obtain ⟨info0, hmem, rfl⟩ := mem_map.mp hinfo
    rw [hptr info0 hmem]
    exact hrel.ptr_lt _ info0 hmem
  · intro k
    rw [map_map_of_eq hkey]
    refine ⟨.inr, fun hk => ?_⟩
    rcases hk with rfl | hk
    · exact mem_map.mpr ⟨own, hown, by rw [VectorUpdateInfo.key, hid]⟩
    · exact hk

/-- The first update of a vector adds a version. -/
lemma UpdateRelated.chainUpdated_new (hact : h.mgr.isActive T.id = true)
    (hnew : ¬∃ info ∈ s.info.chain (row / cap), info.version = T.id) :
    ChainUpdated cap h.writes ⟨T.id, T.startTS, row, value, none⟩ s.info.nextPtr
      (s.info.nextPtr + 1) (s.info.chain (row / cap))
      (⟨s.info.nextPtr, T.id, [(row % cap, value)]⟩ :: s.info.chain (row / cap)) := by
  refine ⟨?_, ?_, ?_, ?_⟩
  · rw [hrel.exists_own_iff hact] at hnew
    rw [insertWrite, if_neg hnew, map_cons, map_cons, hrel.chains]
    rfl
  · rw [map_cons, nodup_cons]
    refine ⟨fun hmem => ?_, hrel.ptr_nodup _⟩
    obtain ⟨info, hinfo, hp⟩ := mem_map.mp hmem
    have := hrel.ptr_lt _ info hinfo
    simp only at hp
    omega
  · intro info hinfo
    rcases mem_cons.mp hinfo with rfl | hinfo
    · exact Nat.lt_succ_self _
    · exact Nat.lt_succ_of_lt (hrel.ptr_lt _ info hinfo)
  · intro k
    rw [map_cons, mem_cons]
    rfl

/-- Other updates succeed. -/
lemma update_ok (hT : T ∈ h.mgr.activeTransactions) (value : V) (hconf : h.conflict T row = false) :
    ∃ ui' p c', s.info.update T (row / cap) (row % cap) value = (ui', .ok p) ∧
      s.info.nextPtr ≤ ui'.nextPtr ∧
      (∀ u, ui'.chain u = if u = row / cap then c' else s.info.chain u) ∧
      ChainUpdated cap h.writes ⟨T.id, T.startTS, row, value, none⟩ p ui'.nextPtr
        (s.info.chain (row / cap)) c' := by
  have hact : h.mgr.isActive T.id = true := isActive_iff.mpr ⟨T, hT, rfl⟩
  have hno : ∀ info ∈ s.info.chain (row / cap), ¬info.conflictsWith T (row % cap) := by
    intro info hinfo hc
    have := (hrel.conflict_iff hT row).mpr ⟨info, hinfo, hc⟩
    simp [hconf] at this
  have hlt := lt_length_getOrCreateUpdateNode s.info (row / cap)
  unfold UpdateInfo.update
  simp only [chain_getOrCreateUpdateNode]
  by_cases hex : ∃ info ∈ s.info.chain (row / cap), info.version = T.id
  · obtain ⟨own, hown, hid⟩ := hex
    have hfind := findVersion_ok hno
      (fun info hi hv => (hrel.ptr_eq_iff hact hown hid hi).mpr hv) none
    rw [if_pos ⟨own, hown, hid⟩] at hfind
    rw [hfind]
    refine ⟨_, _, _, rfl, Nat.le_refl _, fun u => ?_, hrel.chainUpdated_own hact hown hid⟩
    rw [chain_setChain hlt, chain_getOrCreateUpdateNode]
  · have hfind := findVersion_ok (p := 0) hno (fun info hi hv => absurd ⟨info, hi, hv⟩ hex) none
    rw [if_neg hex] at hfind
    rw [hfind]
    refine ⟨_, _, _, rfl, Nat.le_succ _, fun u => ?_, hrel.chainUpdated_new hact hex⟩
    exact (chain_setChain hlt _ u).trans (by rw [chain_getOrCreateUpdateNode]; rfl)

lemma update_related
    (hT : T ∈ h.mgr.activeTransactions) (value : V) (hconf : h.conflict T row = false) :
    (s.update cap T row value).2 = .ok () ∧
      UpdateRelated cap { h with writes := h.writes ++ [⟨T.id, T.startTS, row, value, none⟩] }
        (s.update cap T row value).1 := by
  have hact : h.mgr.isActive T.id = true := isActive_iff.mpr ⟨T, hT, rfl⟩
  obtain ⟨ui', p, c', hupd, hnext, hchain, hc'⟩ := update_ok hrel hT value hconf
  rw [UpdateStore.update, hupd]
  refine ⟨rfl, hrel.mgr, hrel.ok.update hT value hconf, fun v => ?_, fun v => ?_, fun v info => ?_,
    fun id r hr => ?_, fun v q id hk hid => ?_⟩
  · simp only [hchain, versions_concat]
    by_cases hv : v = row / cap
    · subst hv
      rw [if_pos rfl, if_pos rfl, hc'.map_erase]
    · rw [if_neg hv, if_neg (Ne.symm hv), hrel.chains]
  · simp only [hchain]
    split_ifs
    · exact hc'.ptr_nodup
    · exact hrel.ptr_nodup v
  · simp only [hchain]
    split_ifs
    · exact hc'.ptr_lt info
    · exact fun hi => Nat.lt_of_lt_of_le (hrel.ptr_lt v info hi) hnext
  · -- a record, the new one or an old one
    have hold : ∀ id, ∀ r ∈ s.undoBuffer id, h.mgr.isActive id = true ∧ r.version = id ∧
        (r.vectorUpdateInfo, id) ∈ (ui'.chain r.vectorIdx).map VectorUpdateInfo.key := by
      intro id r hr
      obtain ⟨h1, h2, h3⟩ := hrel.pointsAt id r hr
      refine ⟨h1, h2, ?_⟩
      rw [hchain]
      split_ifs with hv
      · exact (hc'.mem_key _).mpr (.inr (hv ▸ h3))
      · exact h3
    simp only at hr ⊢
    by_cases hid : id = T.id
    · subst hid
      rw [update_self] at hr
      rcases mem_append.mp hr with hr | hr
      · exact hold _ r hr
      · obtain rfl := mem_singleton.mp hr
        refine ⟨hact, rfl, ?_⟩
        rw [hchain, if_pos rfl]
        exact (hc'.mem_key _).mpr (.inl rfl)
    · rw [update_of_ne hid] at hr
      exact hold id r hr
  -- every version of an active transaction has its record
  · simp only [hchain] at hk ⊢
    have hold : (q, id) ∈ (s.info.chain v).map VectorUpdateInfo.key →
        ⟨v, q, id⟩ ∈ update s.undoBuffer T.id (s.undoBuffer T.id ++ [⟨row / cap, p, T.id⟩]) id := by
      intro hk
      have hmem := hrel.recorded v q id hk hid
      by_cases hid : id = T.id
      · subst hid
        rw [update_self]
        exact mem_append_left _ hmem
      · rwa [update_of_ne hid]
    split_ifs at hk with hv
    · rcases (hc'.mem_key _).mp hk with heq | hk
      · obtain ⟨rfl, rfl⟩ := Prod.mk.inj heq
        rw [update_self, hv]
        simp
      · exact hold (hv ▸ hk)
    · exact hold hk

/-! ### Commit -/

/-- The version after the transaction `id` has committed at `ts`. -/
def VectorUpdateInfo.commitBy (id ts : ℕ) (info : VectorUpdateInfo V) : VectorUpdateInfo V :=
  if info.version = id then { info with version := ts } else info

/-- Records of the undo buffer of a running transaction mark the versions that are its own. -/
lemma UpdateRelated.record_iff {u : ℕ}
    (hact : h.mgr.isActive id = true) (hinfo : info ∈ s.info.chain u) :
    (∃ r ∈ s.undoBuffer id, r.vectorIdx = u ∧ r.vectorUpdateInfo = info.ptr) ↔
      info.version = id := by
  constructor
  · rintro ⟨r, hr, rfl, hp⟩
    obtain ⟨-, -, hk⟩ := hrel.pointsAt id r hr
    obtain ⟨own, hown, hkey⟩ := mem_map.mp hk
    obtain ⟨hptr, hver⟩ := Prod.mk.inj hkey
    exact (hrel.ptr_eq_iff hact hown hver hinfo).mp (hp.symm.trans hptr.symm)
  · intro hv
    exact ⟨⟨u, info.ptr, id⟩,
      hrel.recorded u info.ptr id (mem_map.mpr ⟨info, hinfo, by rw [← hv]; rfl⟩) hact, rfl, rfl⟩

/-- Replaying the records of a commit restamps the versions of the transaction. -/
lemma commit_updates (hact : h.mgr.isActive id = true) (ts : ℕ) :
    ∃ ui', (s.undoBuffer id).foldlM
        (fun info r => commit info r.vectorIdx r.vectorUpdateInfo ts) s.info = some ui' ∧
      ui'.nextPtr = s.info.nextPtr ∧
      ∀ u, ui'.chain u = (s.info.chain u).map (commitBy id ts) := by
  obtain ⟨ui', hrun, hnext, hchain⟩ := Fold.foldlM_progress
    (fun (info : UpdateInfo V) (r : VectorUpdateRecord) =>
      commit info r.vectorIdx r.vectorUpdateInfo ts)
    (fun done ui => ui.nextPtr = s.info.nextPtr ∧
      ∀ u, ui.chain u = (s.info.chain u).map fun info =>
        if ∃ r ∈ done, r.vectorIdx = u ∧ r.vectorUpdateInfo = info.ptr then
          { info with version := ts } else info)
    (fun done r rest ui (hsplit : _ = s.undoBuffer id) ⟨hnext, hchain⟩ => by
      have hr : r ∈ s.undoBuffer id := by rw [← hsplit]; simp
      obtain ⟨own, hown, hkey⟩ := mem_map.mp (hrel.pointsAt id r hr).2.2
      have hptr : own.ptr = r.vectorUpdateInfo := (Prod.mk.inj hkey).1
      have hmem : ∃ info ∈ ui.chain r.vectorIdx, info.ptr = r.vectorUpdateInfo := by
        rw [hchain]
        refine ⟨_, mem_map_of_mem hown, ?_⟩
        split_ifs <;> exact hptr
      obtain ⟨ui', hrun, hnext', hchain'⟩ := commit_spec ts hmem
      refine ⟨ui', hrun, hnext'.trans hnext, fun u => ?_⟩
      rw [hchain', hchain]
      simp only [mem_append, mem_singleton, or_and_right, exists_or, exists_eq_left]
      split_ifs with hu
      · rw [map_map]
        refine map_congr_left fun info _ => ?_
        simp only [Function.comp, hu, true_and]
        by_cases h1 : ∃ r' ∈ done, r'.vectorIdx = r.vectorIdx ∧ r'.vectorUpdateInfo = info.ptr
        · simp [h1]
        · simp [h1, @eq_comm _ info.ptr]
      · refine map_congr_left fun info _ => ?_
        simp [Ne.symm hu])
    ⟨rfl, fun u => by simp⟩
  -- the records are those of the transaction's versions
  refine ⟨ui', hrun, hnext, fun u => (hchain u).trans (map_congr_left fun info hinfo => ?_)⟩
  simp only [hrel.record_iff hact hinfo, commitBy]

end

lemma RowVersion.toInfo_commitBy {v : RowVersion V} (hiff : v.toInfo.version = id ↔ v.id = id) :
    (v.commitBy id ts).toInfo = v.toInfo.commitBy id ts := by
  by_cases hid : v.id = id
  · rw [RowVersion.commitBy, if_pos hid, VectorUpdateInfo.commitBy, if_pos (hiff.mpr hid)]
    rfl
  · rw [RowVersion.commitBy, if_neg hid, VectorUpdateInfo.commitBy,
      if_neg fun hv => hid (hiff.mp hv)]

/-- The end of a transaction: its records go, and the versions of the others stay. -/
lemma UpdateRelated.ended (hrel : UpdateRelated cap h s) {writes : List (Write V)}
    {ui : UpdateInfo V} (hact : ∀ j, mgr.isActive j = (h.mgr.isActive j && j != id))
    (hok : WriteLog.Ok ⟨mgr, writes⟩)
    (hchains : ∀ v, (ui.chain v).map erase =
      (versions cap v writes).map toInfo) (hnext : ui.nextPtr = s.info.nextPtr)
    (hptr : ∀ v, ((ui.chain v).map ptr).Sublist
      ((s.info.chain v).map ptr))
    (hkey : ∀ v p j, mgr.isActive j = true → ((p, j) ∈ (ui.chain v).map VectorUpdateInfo.key ↔
      (p, j) ∈ (s.info.chain v).map VectorUpdateInfo.key)) :
    UpdateRelated cap ⟨mgr, writes⟩ ⟨mgr, ui, update s.undoBuffer id []⟩ := by
  refine ⟨rfl, hok, hchains, fun v => (hrel.ptr_nodup v).sublist (hptr v), fun v info hinfo => ?_,
    fun j r hr => ?_, fun v p j hk hj => ?_⟩
  · obtain ⟨info', hinfo', heq⟩ := mem_map.mp ((hptr v).subset (mem_map_of_mem hinfo))
    simp only [hnext, ← heq]
    exact hrel.ptr_lt v info' hinfo'
  · simp only at hr ⊢
    by_cases hj : j = id
    · subst hj
      simp at hr
    · rw [update_of_ne hj] at hr
      obtain ⟨h1, h2, h3⟩ := hrel.pointsAt j r hr
      have hj' : mgr.isActive j = true := by simp [hact, h1, hj]
      exact ⟨hj', h2, (hkey _ _ _ hj').mpr h3⟩
  · have hold := (hkey v p j hj).mp hk
    simp only [hact, Bool.and_eq_true, bne_iff_ne] at hj
    simp only [update_of_ne hj.2]
    exact hrel.recorded v p j hold hj.1

lemma update_commit_related (hrel : UpdateRelated cap h s)
    (hcommit : h.mgr.commit id = some (ts, mgr)) :
    ∃ ui, (s.undoBuffer id).foldlM
        (fun info r => commit info r.vectorIdx r.vectorUpdateInfo ts) s.info = some ui ∧
      UpdateRelated cap ⟨mgr, h.writes.map (Write.commitBy id ts)⟩
        ⟨mgr, ui, update s.undoBuffer id []⟩ := by
  obtain ⟨hleft, -, htslt, -⟩ := commit_some hcommit
  have hact := hleft.running
  have hact' := hleft.isActive_eq
  obtain ⟨ui, hrun, hnext, hchain⟩ := commit_updates hrel hact ts
  refine ⟨ui, hrun, hrel.ended hact' (hrel.ok.commit hcommit) (fun v => ?_) hnext (fun v => ?_)
    fun u p j hj => ?_⟩
  -- the version is stamped and the others stay
  · simp only [hchain, versions_commit, map_map]
    calc (s.info.chain v).map _
        = ((s.info.chain v).map erase).map (commitBy id ts) := by
          rw [map_map]
          refine map_congr_left fun info _ => ?_
          by_cases hid : info.version = id <;>
            simp [commitBy, erase, hid]
      _ = _ := by
          rw [hrel.chains, map_map]
          exact map_congr_left fun u hu =>
            (RowVersion.toInfo_commitBy (hrel.ok.version_eq_iff hact hu)).symm
  · rw [hchain, map_map_of_eq fun info _ => by unfold commitBy; split_ifs <;> rfl]
  · -- a version of a transaction that still runs has not been restamped
    obtain ⟨T, hT, rfl⟩ := isActive_iff.mp hj
    have hjts : T.id ≠ ts := by
      have := (mgr.active_le T hT).1
      omega
    have hjid : T.id ≠ id := by
      rw [hact'] at hj
      simp_all
    rw [hchain, map_map]
    simp only [mem_map, Function.comp, VectorUpdateInfo.key, commitBy, Prod.mk.injEq]
    constructor
    · rintro ⟨info, hinfo, hp, hv⟩
      split_ifs at hp hv with hid
      · exact absurd hv.symm hjts
      · exact ⟨info, hinfo, hp, hv⟩
    · rintro ⟨info, hinfo, hp, hv⟩
      refine ⟨info, hinfo, ?_⟩
      rw [if_neg (by omega)]
      exact ⟨hp, hv⟩

/-! ### Rollback -/

lemma eraseP_eq_filter {p : α → Bool} {l : List α}
    (h : l.Pairwise fun a b => p a = true → p b = false) : l.eraseP p = l.filter fun a => !p a := by
  induction l with
  | nil => rfl
  | cons a l ih =>
    obtain ⟨ha, hl⟩ := pairwise_cons.mp h
    by_cases hp : p a = true
    · rw [eraseP_cons_of_pos hp, filter_cons_of_neg (by simp [hp])]
      exact (filter_eq_self.mpr fun b hb => by simp [ha b hb hp]).symm
    · rw [eraseP_cons_of_neg hp, filter_cons_of_pos (by simp [hp]), ih hl]

section

variable (hrel : UpdateRelated cap h s)

include hrel

/-- Replaying the records of a rollback unlinks the versions of the transaction. -/
lemma rollback_updates (hact : h.mgr.isActive id = true) :
    ∃ ui', (s.undoBuffer id).reverse.foldlM
        (fun info r => rollback info r.vectorIdx r.version) s.info = some ui' ∧
      ui'.nextPtr = s.info.nextPtr ∧
      ∀ u, ui'.chain u = (s.info.chain u).filter fun info => info.version != id := by
  have herase : ∀ u, (s.info.chain u).eraseP (fun info => info.version == id) =
      (s.info.chain u).filter fun info => info.version != id := fun u =>
    eraseP_eq_filter ((hrel.own_pairwise hact u).imp fun hab h1 =>
      by simpa using hab (by simpa using h1))
  obtain ⟨ui', hrun, hnext, -, hchain⟩ := Fold.foldlM_progress
    (fun (info : UpdateInfo V) (r : VectorUpdateRecord) =>
      rollback info r.vectorIdx r.version)
    (fun done ui => ui.nextPtr = s.info.nextPtr ∧ ui.updates.length = s.info.updates.length ∧ ∀ u,
      ui.chain u = if ∃ r ∈ done, r.vectorIdx = u then (s.info.chain u).filter fun info =>
      info.version != id else s.info.chain u)
    (fun done r rest ui (hsplit : _ = (s.undoBuffer id).reverse) ⟨hnext, hlen, hchain⟩ => by
      have hr : r ∈ s.undoBuffer id := by
        rw [← mem_reverse, ← hsplit]
        simp
      obtain ⟨-, hver, hk⟩ := hrel.pointsAt id r hr
      obtain ⟨own, hown, -⟩ := mem_map.mp hk
      have hlt : r.vectorIdx < ui.updates.length := by
        rw [hlen]
        exact lt_length_of_mem_chain hown
      obtain ⟨ui', hrun, hnext', hlen', hchain'⟩ := rollback_spec hlt r.version
      refine ⟨ui', hrun, hnext'.trans hnext, hlen'.trans hlen, fun u => ?_⟩
      rw [hchain', hchain, hver]
      simp only [mem_append, mem_singleton, or_and_right, exists_or, exists_eq_left]
      by_cases hu : u = r.vectorIdx
      · rw [if_pos hu, if_pos (Or.inr hu.symm)]
        split_ifs
        · -- a second record of the vector finds nothing
          exact eraseP_of_forall_not fun info hi => by simpa using (mem_filter.mp hi).2
        · exact herase u
      · simp [hu, Ne.symm hu])
    ⟨rfl, rfl, fun u => by simp⟩
  refine ⟨ui', hrun, hnext, fun u => ?_⟩
  rw [hchain]
  split_ifs with hrec
  · rfl
  -- a vector without a record has no version of the transaction
  · refine (filter_eq_self.mpr fun info hinfo => ?_).symm
    rw [bne_iff_ne]
    intro hv
    obtain ⟨r, hr, hu, -⟩ := (hrel.record_iff hact hinfo).mpr hv
    exact hrec ⟨r, mem_reverse.mpr hr, hu⟩

/-- Rolling back keeps the relation. -/
lemma update_rollback_related (hleft : h.mgr.Left mgr id) :
    ∃ ui, (s.undoBuffer id).reverse.foldlM
        (fun info r => rollback info r.vectorIdx r.version) s.info = some ui ∧
      UpdateRelated cap (h.rolledBack id mgr) ⟨mgr, ui, update s.undoBuffer id []⟩ := by
  have hact := hleft.running
  have hact' := hleft.isActive_eq
  obtain ⟨ui, hrun, hnext, hchain⟩ := rollback_updates hrel hact
  refine ⟨ui, hrun, hrel.ended hact' (hrel.ok.rollback hleft) (fun v => ?_) hnext
    (fun v => hchain v ▸ filter_sublist.map _) fun u p j hj => ?_⟩
  · simp only [hchain, versions_rollback]
    calc ((s.info.chain v).filter fun info => info.version != id).map erase
        = ((s.info.chain v).map erase).filter fun info => info.version != id := by
          rw [filter_map]
          rfl
      _ = _ := by
          rw [hrel.chains, filter_map]
          congr 1
          refine filter_congr fun u hu => ?_
          have hiff := hrel.ok.version_eq_iff hact hu
          rw [Function.comp, Bool.eq_iff_iff, bne_iff_ne, bne_iff_ne, ne_eq, ne_eq, hiff]
  · simp only [hact', Bool.and_eq_true, bne_iff_ne] at hj
    rw [hchain]
    simp only [mem_map, mem_filter, bne_iff_ne, VectorUpdateInfo.key, Prod.mk.injEq]
    constructor
    · rintro ⟨info, ⟨hinfo, -⟩, hk⟩
      exact ⟨info, hinfo, hk⟩
    · rintro ⟨info, hinfo, hp, hv⟩
      exact ⟨info, ⟨hinfo, by omega⟩, hp, hv⟩

/-! ### Every run -/

lemma update_begin_related (hb : h.mgr.beginTransaction = some mgr) :
    UpdateRelated cap { h with mgr := mgr } { s with mgr := mgr } := by
  refine ⟨rfl, hrel.ok.begin hb, hrel.chains, hrel.ptr_nodup, hrel.ptr_lt, fun id r hr => ?_,
    fun v p id hk hid => ?_⟩
  · obtain ⟨h1, h2, h3⟩ := hrel.pointsAt id r hr
    exact ⟨isActive_of_begin hb h1, h2, h3⟩
  · refine hrel.recorded v p id hk ?_
    -- a transaction that has just begun has no versions
    obtain ⟨info, hinfo, hkey⟩ := mem_map.mp hk
    have hle : id ≤ h.mgr.lastTransactionID := (Prod.mk.inj hkey).2 ▸ hrel.version_le hinfo
    obtain ⟨T, hact, hTid, -, -⟩ := begin_fields hb
    simp only [isActive, hact, any_append, any_cons, any_nil,
      Bool.or_false, Bool.or_eq_true, beq_iff_eq] at hid
    exact hid.resolve_right (by omega)

/-- **Each step** keeps the relation. -/
lemma update_step_related {h' : WriteLog V}
    (hstep : h.step a = some h') : ∃ s', s.step cap a = some s' ∧ UpdateRelated cap h' s' := by
  cases a with
  | begin =>
    obtain ⟨mgr, hb, rfl⟩ := map_eq_some_iff.mp hstep
    exact ⟨_, map_eq_some_iff.mpr ⟨mgr, by rw [hrel.mgr, hb], rfl⟩, update_begin_related hrel hb⟩
  | update id row value =>
    obtain ⟨T, hf, rfl⟩ := map_eq_some_iff.mp hstep
    have hT := (TransactionManager.find?_some hf).1
    refine ⟨(s.update cap T row value).1, by rw [UpdateStore.step, hrel.mgr, hf]; rfl, ?_⟩
    split_ifs with hconf
    · rw [update_conflict hrel hT value hconf]
      exact hrel.resize _
    · exact (update_related hrel hT value (by simpa using hconf)).2
  | commit id =>
    obtain ⟨⟨ts, mgr⟩, hc, rfl⟩ := map_eq_some_iff.mp hstep
    obtain ⟨ui, hrun, hrel'⟩ := update_commit_related hrel hc
    exact ⟨_, bind_eq_some_iff.mpr ⟨(ts, mgr), by rw [hrel.mgr, hc],
      bind_eq_some_iff.mpr ⟨ui, hrun, rfl⟩⟩, hrel'⟩
  | rollback id =>
    obtain ⟨mgr, hr, rfl⟩ := map_eq_some_iff.mp hstep
    obtain ⟨ui, hrun, hrel'⟩ := update_rollback_related hrel (rollback_left hr)
    exact ⟨_, bind_eq_some_iff.mpr ⟨mgr, by rw [hrel.mgr, hr],
      bind_eq_some_iff.mpr ⟨ui, hrun, rfl⟩⟩, hrel'⟩

end

/-- A checkpoint reads the newest committed value. -/
lemma WriteLog.Ok.read_checkpoint (ho : h.Ok) (row : ℕ) :
    h.read dummyCheckpointTransaction row = (h.newestCommitted row).map Write.value := by
  have hown : h.writes.filter (Write.isOwn dummyCheckpointTransaction.id row) = [] := by
    rw [filter_eq_nil_iff]
    intro w hw hown
    simp only [Write.isOwn, Bool.and_eq_true, beq_iff_eq, Option.isNone_iff_eq_none] at hown
    have hid := ho.ordered.running_id w hw hown.2
    rw [hown.1.2] at hid
    exact absurd hid (by decide)
  have hall : h.writes.filter (Write.isCommittedBy dummyCheckpointTransaction.startTS row) =
      h.writes.filter fun w => w.row == row && w.commitTS.isSome := by
    refine filter_congr fun w hw => ?_
    unfold Write.isCommittedBy
    cases hc : w.commitTS with
    | none => rfl
    | some c =>
      have hlt := (ho.ordered.committed_lt w hw c hc).2
      have hle : c ≤ dummyCheckpointTransaction.startTS := by
        simp only [dummyCheckpointTransaction]
        omega
      simp [hle]
  rw [WriteLog.read, hown, WriteLog.latestCommitted, hall]
  rfl

/-- **Snapshot reads.**  After every interleaving of updates, commits and rollbacks, for every
transaction `T`: the code has run to the end; `scan` and `lookup` write over their output, for every
row, the value of `T`'s own last write, or else of the write with the greatest commit timestamp that
is at most `T`'s start timestamp, or else nothing; and `scanCommitted`, which a checkpoint calls,
does so with the write with the greatest commit timestamp. -/
theorem updateInfo_reads (hcap : 0 < cap) {actions : List (UpdateAction V)}
    (hrun : actions.foldlM WriteLog.step .init = some h) (T : Transaction) :
    ∃ s, actions.foldlM (UpdateStore.step cap) .init = some s ∧
      (∀ output offsetInChunk length p, s.info.scan cap T output offsetInChunk length p =
        if p < length then (h.read T (offsetInChunk + p)).getD (output p) else output p) ∧
      (∀ rowInChunk output pos, s.info.lookup cap T rowInChunk output pos =
        Function.update output pos ((h.read T rowInChunk).getD (output pos))) ∧
      ∀ output startOffsetInOutput startRowScanned numRows p,
        s.info.scanCommitted cap dummyCheckpointTransaction output startOffsetInOutput
            startRowScanned numRows p =
          if startOffsetInOutput ≤ p ∧ p < startOffsetInOutput + numRows then
            ((h.newestCommitted (startRowScanned + (p - startOffsetInOutput))).map
              Write.value).getD (output p)
          else output p := by
  obtain ⟨s, hs, hrel⟩ := Fold.foldlM_simulation step (UpdateStore.step cap)
    (UpdateRelated cap) (fun _ _ _ _ hrel hstep => update_step_related hrel hstep)
    (updateRelated_init cap) hrun
  refine ⟨s, hs, fun output offset length p => ?_, fun row output pos => ?_,
    fun output startOut startRow num p => ?_⟩
  · rw [scan_spec _ hcap, hrel.readRow]
  · rw [lookup_spec, hrel.readRow]
  · rw [scanCommitted_spec _ hcap, hrel.readRow, hrel.ok.read_checkpoint]

/-- The log allows each step of the store. -/
lemma update_enabled (hrel : UpdateRelated cap h s) {s' : UpdateStore V}
    (hstep : s.step cap a = some s') : ∃ h', h.step a = some h' := by
  cases a with
  | begin =>
    obtain ⟨mgr, hb, -⟩ := map_eq_some_iff.mp hstep
    exact ⟨_, by rw [step, ← hrel.mgr, hb]; rfl⟩
  | update id row value =>
    obtain ⟨T, hf, -⟩ := map_eq_some_iff.mp hstep
    exact ⟨_, by rw [step, ← hrel.mgr, hf]; rfl⟩
  | commit id =>
    obtain ⟨⟨ts, mgr⟩, hc, -⟩ := bind_eq_some_iff.mp hstep
    exact ⟨_, by rw [step, ← hrel.mgr, hc]; rfl⟩
  | rollback id =>
    obtain ⟨mgr, hr, -⟩ := bind_eq_some_iff.mp hstep
    exact ⟨_, by rw [step, ← hrel.mgr, hr]; rfl⟩

/-- The updates that the code has accepted are the writes of the log. -/
lemma logStep_related (hrel : UpdateRelated cap h s)
    {t : UpdateStore V × List (Write V)} (hstep : logStep cap (s, h.writes) a = some t) :
    ∃ h', h.step a = some h' ∧ UpdateRelated cap h' t.1 ∧ t.2 = h'.writes := by
  obtain ⟨s', hs', rfl⟩ := map_eq_some_iff.mp hstep
  obtain ⟨h', hh'⟩ := update_enabled hrel hs'
  obtain ⟨s'', hs'', hrel'⟩ := update_step_related hrel hh'
  obtain rfl : s' = s'' := Option.some.inj (hs'.symm.trans hs'')
  refine ⟨h', hh', hrel', ?_⟩
  cases a with
  | begin =>
    obtain ⟨mgr, -, rfl⟩ := map_eq_some_iff.mp hh'
    rfl
  | update id row value =>
    obtain ⟨T, hf, rfl⟩ := map_eq_some_iff.mp hh'
    have hT := (TransactionManager.find?_some hf).1
    simp only [hrel.mgr, hf]
    split_ifs with hconf
    · rw [update_conflict hrel hT value hconf]
    · rw [(update_related hrel hT value (by simpa using hconf)).1]
  | commit id =>
    obtain ⟨⟨ts, mgr⟩, hc, rfl⟩ := map_eq_some_iff.mp hh'
    simp only [hrel.mgr, hc]
  | rollback id =>
    obtain ⟨mgr, -, rfl⟩ := map_eq_some_iff.mp hh'
    rfl

/-- A version conflicts when its transaction runs or committed too late. -/
lemma WriteLog.Ok.conflict_iff_exists (ho : h.Ok) (T : Transaction) (row : ℕ) :
    h.conflict T row = true ↔ ∃ w ∈ h.writes, w.row = row ∧ w.id ≠ T.id ∧
      (h.mgr.isActive w.id = true ∨ ∃ c, w.commitTS = some c ∧ T.startTS < c) := by
  rw [WriteLog.conflict, any_eq_true]
  refine exists_congr fun w => and_congr_right fun hw => ?_
  simp only [Write.conflictsWith, Bool.and_eq_true, beq_iff_eq, bne_iff_ne, and_assoc]
  refine and_congr_right fun _ => and_congr_right fun _ => ?_
  cases hc : w.commitTS with
  | none =>
    obtain ⟨T', hT', hid, -⟩ := ho.running w hw hc
    have hact : h.mgr.isActive w.id = true := isActive_iff.mpr ⟨T', hT', hid⟩
    simp [hact]
  | some c =>
    have hact := (ho.committed w hw c hc).2.2
    simp [hact]

/-- Of two writers one committed before the other began. -/
lemma Ordered.commit_before_start {ws : List (Write V)} (ho : Ordered ws) {w w' : Write V}
    (hw : w ∈ ws) (hw' : w' ∈ ws) (hrow : w.row = w'.row) (hid : w.id ≠ w'.id) {c c' : ℕ}
    (hc : w.commitTS = some c) (hc' : w'.commitTS = some c') :
    c ≤ w'.startTS ∨ c' ≤ w.startTS := by
  let R : Write V → Write V → Prop := fun a b => a.row = b.row → a.id ≠ b.id →
    ∀ c c', a.commitTS = some c → b.commitTS = some c' → c ≤ b.startTS ∨ c' ≤ a.startTS
  have hpair : ws.Pairwise R := ho.separate.imp fun {a b} hab hrow hid c c' hc _ => by
    obtain ⟨d, hd, hle⟩ := hab hrow hid
    obtain rfl : d = c := Option.some.inj (hd.symm.trans hc)
    exact .inl hle
  have : Std.Symm R := ⟨fun a b hab hrow hid c c' hc hc' =>
    (hab hrow.symm hid.symm c' c hc' hc).symm⟩
  exact hpair.forall_of_forall (fun a _ _ hne => absurd rfl hne) hw hw' hrow hid c c' hc hc'

/-- **No lost update.**  In every run of the code, with `ws` the updates it has accepted: of two
committed transactions that updated one row, one was committed when the other started; an update
throws exactly when another running transaction has updated the row or one has committed its update
after the transaction started; and an update that throws changes nothing that any transaction
reads. -/
theorem updateInfo_noLostUpdate (hcap : 0 < cap) {actions : List (UpdateAction V)}
    {ws : List (Write V)}
    (hrun : actions.foldlM (logStep cap) (.init, []) = some (s, ws)) :
    (∀ w ∈ ws, ∀ w' ∈ ws, w.row = w'.row → w.id ≠ w'.id →
      ∀ c c', w.commitTS = some c → w'.commitTS = some c' → c ≤ w'.startTS ∨ c' ≤ w.startTS) ∧
    ∀ T ∈ s.mgr.activeTransactions, ∀ row value,
      ((s.update cap T row value).2 = .error UpdateInfo.updateConflict ↔ ∃ w ∈ ws, w.row = row ∧
        w.id ≠ T.id ∧ (s.mgr.isActive w.id = true ∨ ∃ c, w.commitTS = some c ∧ T.startTS < c)) ∧
      ((s.update cap T row value).2 ≠ .error UpdateInfo.updateConflict →
        (s.update cap T row value).2 = .ok ()) ∧
      ((s.update cap T row value).2 = .error UpdateInfo.updateConflict → ∀ T' output,
        (∀ offsetInChunk length,
          (s.update cap T row value).1.info.scan cap T' output offsetInChunk length =
            s.info.scan cap T' output offsetInChunk length) ∧
        (∀ rowInChunk pos, (s.update cap T row value).1.info.lookup cap T' rowInChunk output pos =
          s.info.lookup cap T' rowInChunk output pos) ∧
        ∀ startOffsetInOutput startRowScanned numRows,
          (s.update cap T row value).1.info.scanCommitted cap T' output startOffsetInOutput
              startRowScanned numRows =
            s.info.scanCommitted cap T' output startOffsetInOutput startRowScanned numRows) := by
  obtain ⟨h, -, hrel, rfl⟩ := Fold.foldlM_simulation (logStep cap) step
    (fun t h => UpdateRelated cap h t.1 ∧ t.2 = h.writes)
    (by rintro ⟨s, _⟩ h a t' ⟨hrel, rfl⟩ hstep; exact logStep_related hrel hstep)
    ⟨updateRelated_init cap, rfl⟩ hrun
  refine ⟨fun w hw w' hw' hrow hid c c' hc hc' =>
    hrel.ok.ordered.commit_before_start hw hw' hrow hid hc hc', fun T hT row value => ?_⟩
  rw [hrel.mgr] at hT ⊢
  rw [← hrel.ok.conflict_iff_exists]
  by_cases hconf : h.conflict T row = true
  -- a conflicting update only makes room for the vector
  · rw [update_conflict hrel hT value hconf]
    have hread : ∀ T' r, (s.info.getOrCreateUpdateNode (row / cap)).readRow cap T' r =
        s.info.readRow cap T' r := fun T' r => by
      simp only [readRow, chain_getOrCreateUpdateNode]
    refine ⟨by simp [hconf], by simp, fun _ T' output => ⟨?_, ?_, ?_⟩⟩
    · intro offset length
      funext p
      rw [scan_spec _ hcap, scan_spec _ hcap, hread]
    · intro r pos
      rw [lookup_spec, lookup_spec, hread]
    · intro startOut startRow num
      funext p
      rw [scanCommitted_spec _ hcap, scanCommitted_spec _ hcap, hread]
  · have hok := (update_related hrel hT value (by simpa using hconf)).1
    rw [hok]
    simp [hconf]

/-- Two transactions update one vector; the first commits, and a third updates its row again. -/
def interleavedUpdates : List (UpdateAction ℕ) :=
  [.begin, .begin, .update (startTransactionID + 1) 0 10, .update (startTransactionID + 2) 1 20,
    .update (startTransactionID + 2) 0 21, .commit (startTransactionID + 1), .begin,
    .update (startTransactionID + 3) 0 30, .commit (startTransactionID + 3)]

/-- The update of row 0 by the second transaction conflicts; the others succeed. -/
theorem updateInfo_reads_interleaved :
    ∃ h s, interleavedUpdates.foldlM WriteLog.step .init = some h ∧
      interleavedUpdates.foldlM (UpdateStore.step 2) .init = some s ∧
      h.writes.length = 3 ∧
      ∀ row output pos, s.info.lookup 2 dummyCheckpointTransaction row output pos =
        Function.update output pos ((h.read dummyCheckpointTransaction row).getD (output pos)) := by
  have hlen : (interleavedUpdates.foldlM step .init).map (fun h => h.writes.length)
      = some 3 := by decide +kernel
  obtain ⟨h, hrun, hnum⟩ := map_eq_some_iff.mp hlen
  obtain ⟨s, hs, -, hlookup, -⟩ :=
    updateInfo_reads (show 0 < 2 by decide) hrun dummyCheckpointTransaction
  exact ⟨h, s, hrun, hs, hnum, hlookup⟩

theorem updateInfo_noLostUpdate_interleaved :
    ∃ s ws, interleavedUpdates.foldlM (logStep 2) (.init, []) = some (s, ws) ∧
      ws.length = 3 ∧
      ∀ w ∈ ws, ∀ w' ∈ ws, w.row = w'.row → w.id ≠ w'.id → ∀ c c', w.commitTS = some c →
        w'.commitTS = some c' → c ≤ w'.startTS ∨ c' ≤ w.startTS := by
  have hlen : (interleavedUpdates.foldlM (logStep 2) (.init, [])).map
      (fun t => t.2.length) = some 3 := by decide +kernel
  obtain ⟨⟨s, ws⟩, hrun, hnum⟩ := map_eq_some_iff.mp hlen
  exact ⟨s, ws, hrun, hnum, (updateInfo_noLostUpdate (show 0 < 2 by decide) hrun).1⟩

end Ladybug
