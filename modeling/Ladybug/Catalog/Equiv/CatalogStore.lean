import Ladybug.Catalog.Equiv.CatalogHistory

/-!
# Concurrent changes of catalog entries

* `StoreRelated`: the catalog set and the undo buffers stand for the history;
* `VersionsSeen`: every version was written by a transaction that saw the one below it, so a
  transaction that sees the newest version of an entry sees all of them (`VersionsSeen.visible`);
* `step_related`, `run_related`: as long as every change is allowed, the code follows the history;
* `catalogStore_no_lost_update`: no version is put on one that its writer does not see, and a change
  that would throws.
-/

namespace Ladybug

open Mvcc List Function CatalogSet Option CatalogStore
open CatalogHistory (add create isFree push rename)
open TransactionManager (stampOk_of_isActive isActive_iff)
open CatalogStore (allowed put step)

variable {K E : Type}

/-! ### The order of the versions -/

/-- The versions of one entry: each was written by a transaction that saw the one below it, and
that had started before it committed; the others are of running transactions. -/
structure VersionsSeen (m : TransactionManager) (vs : List (EntryVersion E)) : Prop where
  saw : vs.IsChain EntryVersion.Saw
  committed : ∀ v ∈ vs, ∀ ts, v.stamp = .committed ts → v.startTS ≤ ts
  active : ∀ v ∈ vs, ∀ id, v.stamp = .active id →
    ∃ T ∈ m.activeTransactions, T.id = id ∧ T.startTS = v.startTS

namespace VersionsSeen

variable {m m' : TransactionManager} {vs : List (EntryVersion E)} {T : Transaction}
  {v : EntryVersion E} {id ts : ℕ}

/-- The writer of a version that `T` sees had started when `T` did. -/
lemma startTS_le (ho : VersionsSeen m vs) (hT : T ∈ m.activeTransactions) (hv : v ∈ vs)
    (hvis : v.stamp.visibleTo T.id T.startTS = true) : v.startTS ≤ T.startTS := by
  rcases hst : v.stamp with id | ts <;> rw [hst] at hvis
  · obtain ⟨T', hT', hid, hstart⟩ := ho.active v hv id hst
    have hid' : T'.id = T.id := hid.trans (by simpa using hvis)
    obtain rfl := List.inj_on_of_nodup_map m.active_nodup hT' hT hid'
    exact hstart.ge
  · have := ho.committed v hv ts hst
    have hle : ts ≤ T.startTS := by simpa using hvis
    omega

/-- A transaction that sees the newest version of an entry sees all of them. -/
lemma visible (ho : VersionsSeen m vs) (hT : T ∈ m.activeTransactions) (hhead : vs.head? = some v)
    (hvis : v.stamp.visibleTo T.id T.startTS = true) :
    ∀ w ∈ vs, w.stamp.visibleTo T.id T.startTS = true := by
  induction vs generalizing v with
  | nil => simp at hhead
  | cons u vs ih =>
    obtain rfl := some.inj hhead
    have hstart := ho.startTS_le hT mem_cons_self hvis
    intro w hw
    rcases mem_cons.mp hw with rfl | hw
    · exact hvis
    cases vs with
    | nil => simp at hw
    | cons x vs =>
      -- the writer of `u` saw `x`
      obtain ⟨hsaw, hchain⟩ := isChain_cons_cons.mp ho.saw
      refine ih ⟨hchain, fun v hv => ho.committed v (mem_cons_of_mem _ hv),
        fun v hv => ho.active v (mem_cons_of_mem _ hv)⟩ rfl ?_ w hw
      rcases hsaw with heq | ⟨ts, hle, hts⟩
      · rw [heq]
        exact hvis
      · simpa [hts] using hle.trans hstart

lemma cons (ho : VersionsSeen m vs) (hT : T ∈ m.activeTransactions)
    (hhead : ∀ w, vs.head? = some w → w.stamp.visibleTo T.id T.startTS = true) (oid : ℕ)
    (content : Option E) : VersionsSeen m (⟨oid, .active T.id, T.startTS, content⟩ :: vs) where
  saw := by
    refine isChain_cons.mpr ⟨fun w hw => ?_, ho.saw⟩
    have hvis := hhead w hw
    rcases hst : w.stamp with id | ts <;> rw [hst] at hvis
    · exact .inl (hst.trans (congrArg Stamp.active (by simpa using hvis)))
    · exact .inr ⟨ts, by simpa using hvis, hst⟩
  committed v hv ts hts := by
    rcases mem_cons.mp hv with rfl | hv
    · simp at hts
    · exact ho.committed v hv ts hts
  active v hv id hid := by
    rcases mem_cons.mp hv with rfl | hv
    · exact ⟨T, hT, by simpa using hid, rfl⟩
    · exact ho.active v hv id hid

/-- The deleted version with which the chain of a name starts. -/
lemma dummy (m : TransactionManager) (oid : ℕ) (content : Option E) :
    VersionsSeen m [⟨oid, .committed 0, 0, content⟩] where
  saw := isChain_singleton _
  committed := by simp
  active := by simp

lemma mono (ho : VersionsSeen m vs) (hle : ∀ T ∈ m.activeTransactions, T ∈ m'.activeTransactions) :
    VersionsSeen m' vs :=
  { ho with active := fun v hv id hid =>
      (ho.active v hv id hid).imp fun T hT => ⟨hle T hT.1, hT.2⟩ }

/-- The transaction commits at a timestamp that nobody has started at. -/
lemma commit (ho : VersionsSeen m vs) (hc : m.commit id = some (ts, m')) :
    VersionsSeen m' (vs.map fun v => { v with stamp := v.stamp.commit id ts }) := by
  obtain ⟨⟨-, hactive, -, -⟩, htsEq, -, -⟩ := TransactionManager.commit_some hc
  refine ⟨?_, fun v hv t ht => ?_, fun v hv t ht => ?_⟩
  · refine isChain_map_of_isChain _ (fun v w hsaw => ?_) ho.saw
    rcases hsaw with heq | ⟨t, hle, ht⟩
    · exact .inl (congrArg (Stamp.commit id ts) heq)
    · exact .inr ⟨t, hle, by simp [ht, Stamp.commit]⟩
  · obtain ⟨w, hw, rfl⟩ := mem_map.mp hv
    simp only [Stamp.commit] at ht
    split_ifs at ht with hid
    · obtain ⟨T, hT, -, hstart⟩ := ho.active w hw id hid
      have := (m.active_le T hT).2.2
      simp only [Stamp.committed.injEq] at ht
      simp only
      omega
    · exact ho.committed w hw t ht
  · obtain ⟨w, hw, rfl⟩ := mem_map.mp hv
    simp only [Stamp.commit] at ht
    split_ifs at ht with hid
    obtain ⟨T, hT, hTid, hstart⟩ := ho.active w hw t ht
    have hne : T.id ≠ id := fun h => hid (by rw [ht, ← hTid, h])
    exact ⟨T, by simp [hactive, hT, hne], hTid, hstart⟩

/-- The transaction is gone, and its versions with it. -/
lemma rollback (ho : VersionsSeen m vs)
    (hsuffix : (vs.filter fun v => v.stamp != .active id) <:+ vs)
    (hleft : m.Left m' id) : VersionsSeen m' (vs.filter fun v => v.stamp != .active id) := by
  refine ⟨ho.saw.suffix hsuffix, fun v hv => ho.committed v (mem_of_mem_filter hv),
    fun v hv t ht => ?_⟩
  obtain ⟨hmem, hne⟩ := mem_filter.mp hv
  obtain ⟨T, hT, rfl, hstart⟩ := ho.active v hmem t ht
  exact ⟨T, by simpa [hleft.active, hT, ht] using hne, rfl, hstart⟩

end VersionsSeen

/-- The versions of a transaction, if there are any, are on top of the others. -/
lemma ChainRelated.filter_suffix {active : ℕ → Bool} {nextPtr : ℕ} {vs : List (EntryVersion E)}
    {c : List (CatalogEntry E)} {records : ℕ → List ℕ}
    (h : ChainRelated active nextPtr vs c records) (id : ℕ) :
    (vs.filter fun v => v.stamp != .active id) <:+ vs := by
  by_cases hmem : ∃ v ∈ vs, v.stamp = .active id
  · obtain ⟨own, old, rfl, hs⟩ := h.stacked_of_mem hmem
    rw [hs.filter_eq]
    exact suffix_append own old
  · have hall : (vs.filter fun v => v.stamp != .active id) = vs :=
      filter_eq_self.mpr fun v hv => by simpa using fun hst => hmem ⟨v, hv, hst⟩
    exact ⟨[], hall⟩

/-! ### The code follows the history -/

variable [DecidableEq K]

namespace CatalogStore

/-- The records of a transaction about the entry of a name. -/
def records (s : CatalogStore K E) (name : K) (id : ℕ) : List ℕ :=
  ((s.undoBuffer id).filter fun r => r.name = name).map CatalogEntryRecord.catalogEntry

variable (s : CatalogStore K E) (id : ℕ) (cs : CatalogSet K E)

lemma records_put_nil : (s.put id cs []).records = s.records := by
  simp only [put, append_nil, update_eq_self]
  rfl

lemma records_put_singleton (r : CatalogEntryRecord K) :
    (s.put id cs [r]).records = pushRecord s.records id r := by
  funext name t
  by_cases ht : t = id
  · subst ht
    by_cases hname : r.name = name
    · subst hname
      simp [records, put, pushRecord]
    · simp [records, put, pushRecord, hname, Ne.symm hname]
  · by_cases hname : r.name = name
    · subst hname
      simp [records, put, pushRecord, ht]
    · simp [records, put, pushRecord, ht, Ne.symm hname]

lemma records_put_pair (r r' : CatalogEntryRecord K) :
    (s.put id cs [r, r']).records = pushRecord (pushRecord s.records id r) id r' := by
  rw [← records_put_singleton s id cs r, ← records_put_singleton _ id cs r']
  simp [put]

lemma records_finish (mgr : TransactionManager) (name : K) :
    (s.finish id mgr cs).records name = update (s.records name) id [] := by
  funext t
  by_cases ht : t = id
  · subst ht
    simp [records, finish]
  · simp [records, finish, ht]

end CatalogStore

/-- A replay of records replays on the chain of each name the records about it. -/
lemma foldlM_chains (act : ℕ → List (CatalogEntry E) → Option (List (CatalogEntry E)))
    {rs : List (CatalogEntryRecord K)} {cs : CatalogSet K E} {chains : K → List (CatalogEntry E)}
    (h : ∀ name, ((rs.filter fun r => r.name = name).map CatalogEntryRecord.catalogEntry).foldlM
      (fun c p => act p c) (cs.entries name) = some (chains name)) :
    rs.foldlM (fun cs r => (act r.catalogEntry (cs.entries r.name)).map (cs.setChain r.name)) cs =
      some { cs with entries := chains } := by
  induction rs generalizing cs with
  | nil =>
    have hchains : cs.entries = chains := funext fun name => some.inj (h name)
    rw [← hchains]
    rfl
  | cons r rs ih =>
    have hr := h r.name
    rw [filter_cons_of_pos (by simp), map_cons] at hr
    obtain ⟨c, hc, hrest⟩ := Fold.foldlM_cons_some.mp hr
    refine Fold.foldlM_cons_some.mpr ⟨cs.setChain r.name c, by rw [hc]; rfl, ?_⟩
    apply ih
    intro name
    by_cases hname : r.name = name
    · subst hname
      simpa [setChain] using hrest
    · have hne := h name
      rw [filter_cons_of_neg (by simpa using hname)] at hne
      simpa [setChain, Ne.symm hname] using hne

/-- The code stands for the history, whose versions are ordered. -/
structure StoreRelated (h : CatalogHistory K E) (s : CatalogStore K E) : Prop where
  mgr : s.mgr = h.mgr
  catalog : CatalogRelated h.mgr.isActive h s.catalogSet s.records
  ordered : ∀ name, VersionsSeen h.mgr (h.versions name)

namespace StoreRelated

variable {h h' : CatalogHistory K E} {s : CatalogStore K E} {T : Transaction} {id ts : ℕ}
  {mgr : TransactionManager}

lemma init (catalog : K → Option (ℕ × E)) :
    StoreRelated (.init catalog) (init catalog) where
  mgr := rfl
  catalog := by
    refine ⟨rfl, fun name => ?_⟩
    simp only [CatalogHistory.init, CatalogStore.init]
    cases catalog name with
    | none => exact ⟨.nil, nodup_nil, by simp, .inl ⟨rfl, fun _ => rfl⟩⟩
    | some p =>
      refine ⟨.cons ⟨rfl, rfl, rfl⟩ .nil, by simp, by simp, .inr ⟨0, [], _, rfl, ?_⟩⟩
      exact ⟨by simp, by simpa using startTransactionID_pos, ⟨_, mem_singleton_self _, rfl⟩,
        by simp, by simp [CatalogStore.records], fun _ _ => rfl⟩
  ordered name := by
    simp only [CatalogHistory.init]
    cases catalog name with
    | none => exact ⟨isChain_nil, by simp, by simp⟩
    | some p => exact VersionsSeen.dummy _ _ _

section

variable (hrel : StoreRelated h s)

include hrel

lemma begin (hb : h.mgr.beginTransaction = some mgr) :
    StoreRelated { h with mgr := mgr } { s with mgr := mgr } := by
  obtain ⟨T, hactive, -⟩ := TransactionManager.begin_fields hb
  refine ⟨rfl, ⟨hrel.catalog.nextOID, fun name => ?_⟩, fun name =>
    (hrel.ordered name).mono fun T hT => by simp [hactive, hT]⟩
  have hc := hrel.catalog.chains name
  refine { hc with stacked := hc.stacked.imp_right ?_ }
  rintro ⟨id, own, old, hsplit, hs⟩
  exact ⟨id, own, old, hsplit,
    { hs with running := fun hne => TransactionManager.isActive_of_begin hb (hs.running hne) }⟩

/-- The end of a transaction whose records have been replayed on every chain. -/
lemma finish {chains : K → List (CatalogEntry E)} (h' : CatalogHistory K E)
    (hnext : h'.nextOID = h.nextOID)
    (hchains : ∀ name, ChainRelated mgr.isActive s.catalogSet.nextPtr (h'.versions name)
      (chains name) (update (s.records name) id []))
    (hordered : ∀ name, VersionsSeen mgr (h'.versions name)) :
    StoreRelated { h' with mgr := mgr }
      (s.finish id mgr { s.catalogSet with entries := chains }) := by
  refine ⟨rfl, ⟨hrel.catalog.nextOID.trans hnext.symm, fun name => ?_⟩, hordered⟩
  rw [records_finish]
  exact hchains name

lemma commit (hc : h.mgr.commit id = some (ts, mgr)) :
    ∃ cs, (s.undoBuffer id).foldlM (commitRecord ts) s.catalogSet = some cs ∧
      StoreRelated { h.commit id ts with mgr := mgr } (s.finish id mgr cs) := by
  obtain ⟨hleft, -, hts, -⟩ := TransactionManager.commit_some hc
  choose chains hrun hchains using fun name =>
    (hrel.catalog.chains name).commit hleft.isActive_eq hts
  exact ⟨_, foldlM_chains (setNextTimestamp · ts) hrun, hrel.finish (h.commit id ts) rfl
    hchains fun name => (hrel.ordered name).commit hc⟩

/-- A commit that fails after some records, and is rolled back; with no records, a rollback. -/
lemma failedCommit (hleft : h.mgr.Left mgr id) (ts k : ℕ) :
    ∃ cs cs', ((s.undoBuffer id).take k).foldlM (commitRecord ts) s.catalogSet = some cs ∧
      (s.undoBuffer id).reverse.foldlM rollbackRecord cs = some cs' ∧
      StoreRelated { h.rollback id with mgr := mgr } (s.finish id mgr cs') := by
  have hsplit : ∀ name, s.records name id =
      (((s.undoBuffer id).take k).filter fun r => r.name = name).map
        CatalogEntryRecord.catalogEntry ++
      (((s.undoBuffer id).drop k).filter fun r => r.name = name).map
        CatalogEntryRecord.catalogEntry := fun name => by
    rw [records, ← map_append, ← filter_append, take_append_drop]
  choose chains chains' hrun hrun' hchains using fun name =>
    (hrel.catalog.chains name).failedCommit hleft.isActive_eq ts (hsplit name)
  refine ⟨_, _, foldlM_chains (setNextTimestamp · ts) hrun, foldlM_chains unlinkNext fun name => ?_,
    hrel.finish (h.rollback id) rfl hchains fun name => (hrel.ordered name).rollback
      ((hrel.catalog.chains name).filter_suffix id) hleft⟩
  rw [filter_reverse, map_reverse]
  exact hrun' name

end

/-! ### New versions -/

section

variable (hordered : ∀ name, VersionsSeen h.mgr (h.versions name))
  (hT : T ∈ h.mgr.activeTransactions) {name : K}

include hordered hT

/-- A visible newest version may be replaced. -/
lemma push_ordered
    (hhead : ∀ w, (h.versions name).head? = some w → w.stamp.visibleTo T.id T.startTS = true)
    (oid : ℕ) (content : Option E) (name' : K) :
    VersionsSeen h.mgr ((h.push name ⟨oid, .active T.id, T.startTS, content⟩).versions name') := by
  unfold push
  by_cases hname : name' = name
  · subst hname
    simpa using (hordered name').cons hT hhead oid content
  · simpa [hname] using hordered name'

/-- A new entry stands on a version that its transaction sees. -/
lemma add_ordered (hfree : h.isFree T name = true) (oid : ℕ) (content : E) (name' : K) :
    VersionsSeen h.mgr ((h.add T name oid content).versions name') := by
  unfold add
  by_cases hname : name' = name
  · subst hname
    cases hvs : h.versions name' with
    | nil =>
      simp only [isEmpty_nil, if_true, push, update_self, hvs]
      exact (VersionsSeen.dummy h.mgr oid none).cons hT (by simp) oid (some content)
    | cons v vs =>
      have hvis : v.stamp.visibleTo T.id T.startTS = true := by
        simp only [isFree, hvs, head?_cons, all_some, Bool.and_eq_true] at hfree
        exact hfree.1
      simp only [isEmpty_cons, Bool.false_eq_true, if_false, push, update_self]
      exact (hordered name').cons hT (by simpa [hvs] using hvis) oid (some content)
  · split_ifs <;> simpa [push, hname] using hordered name'

end

variable [ToString K]

/-- A transaction that sees the entry that it changes sees the newest version of it. -/
lemma head_visible (hrel : StoreRelated h s) {name : K} {p : ℕ × E}
    (hnewest : s.catalogSet.containsEntry T name = some false ∨
      s.catalogSet.newestReadable T name) (hlook : h.lookup T name = some p) :
    ∀ w, (h.versions name).head? = some w → w.stamp.visibleTo T.id T.startTS = true := by
  have hok := fun id (hid : h.mgr.isActive id = true) => stampOk_of_isActive hid
  have hnew := hrel.catalog.resolve_lookup hok hnewest hlook
  obtain ⟨v, -, hv, hvis, -⟩ := hrel.catalog.current hok hnew hlook
  intro w hw
  obtain rfl := some.inj (hv.symm.trans hw)
  exact hvis

section

variable (hrel : StoreRelated h s) {a : CatalogAction K E}

include hrel

/-- A change by a running transaction: the catalog set and the records that the code leaves. -/
lemma changed {change : Transaction → CatalogHistory K E} (hmgr : ∀ T, (change T).mgr = h.mgr)
    (hstep : (h.mgr.find? id).map change = some h')
    (hspec : ∀ T, s.mgr.find? id = some T → T ∈ h.mgr.activeTransactions → T.id = id →
      ∃ cs rs, s.step a = some (s.put id cs rs) ∧
        CatalogRelated h.mgr.isActive (change T) cs (s.put id cs rs).records ∧
        ∀ name, VersionsSeen h.mgr ((change T).versions name)) :
    ∃ s', s.step a = some s' ∧ StoreRelated h' s' := by
  obtain ⟨T, hT, rfl⟩ := map_eq_some_iff.mp hstep
  obtain ⟨hmem, hid⟩ := TransactionManager.find?_some hT
  obtain ⟨cs, rs, hs, hcatalog, hordered⟩ := hspec T (by rw [hrel.mgr, hT]) hmem hid
  refine ⟨_, hs, hrel.mgr.trans (hmgr T).symm, ?_, ?_⟩
  · rw [hmgr]
    exact hcatalog
  · rw [hmgr]
    exact hordered

/-- A drop or an alteration, of which `call` is the code and `change` what it is for. -/
lemma dropped {change : Transaction → CatalogHistory K E} (hmgr : ∀ T, (change T).mgr = h.mgr)
    {name : K} (call : Transaction → Option (Except String (CatalogSet K E × ℕ)))
    (hstep : (h.mgr.find? id).map change = some h')
    (ha : s.step a = (s.mgr.find? id).bind fun T => (call T).map (s.change id name))
    (hspec : ∀ T, s.mgr.find? id = some T → T ∈ h.mgr.activeTransactions →
      ((∃ cs prev, call T = some (.ok (cs, prev)) ∧
          CatalogRelated h.mgr.isActive (change T) cs (pushRecord s.records T.id ⟨name, prev⟩)) ∨
        ∃ e, call T = some (.error e) ∧
          CatalogRelated h.mgr.isActive (change T) s.catalogSet s.records) ∧
      ∀ name, VersionsSeen h.mgr ((change T).versions name)) :
    ∃ s', s.step a = some s' ∧ StoreRelated h' s' := by
  refine hrel.changed hmgr hstep fun T hT hmem hid => ?_
  subst hid
  rw [ha, hT, bind_some]
  obtain ⟨⟨cs, prev, hs, hcatalog⟩ | ⟨e, hs, hcatalog⟩, hordered⟩ := hspec T hT hmem
  · exact ⟨cs, [⟨name, prev⟩], by rw [hs]; rfl, by rwa [records_put_singleton], hordered⟩
  · refine ⟨s.catalogSet, [], ?_, by rwa [records_put_nil], hordered⟩
    rw [hs]
    simp [CatalogStore.change, put]

/-- **One action.**  An allowed action takes the code to a state that stands for the new history. -/
theorem step_related (hallowed : s.allowed a) (hstep : h.step a = some h') :
    ∃ s', s.step a = some s' ∧ StoreRelated h' s' := by
  have hok := fun id (hid : h.mgr.isActive id = true) => stampOk_of_isActive hid
  have hact : ∀ {T}, T ∈ h.mgr.activeTransactions → h.mgr.isActive T.id = true :=
    fun hmem => isActive_iff.mpr ⟨_, hmem, rfl⟩
  cases a with
  | begin =>
    obtain ⟨mgr, hb, rfl⟩ := map_eq_some_iff.mp hstep
    exact ⟨_, map_eq_some_iff.mpr ⟨mgr, by rw [hrel.mgr, hb], rfl⟩, hrel.begin hb⟩
  | createEntry id name content =>
    refine hrel.changed (fun T => ?_) hstep fun T hT hmem hid => ?_
    · unfold create add
      dsimp only
      split_ifs <;> rfl
    · subst hid
      have hordered : ∀ name', VersionsSeen h.mgr ((h.create T name content).versions name') := by
        unfold create
        dsimp only
        split_ifs with hfree
        · exact add_ordered (h := { h with nextOID := h.nextOID + 1 }) hrel.ordered hmem hfree _ _
        · exact hrel.ordered
      rcases hrel.catalog.createEntry_spec hok (hact hmem) content with
        ⟨cs, prev, hs, hcatalog⟩ | ⟨cs, e, hs, hcatalog⟩
      · exact ⟨cs, [⟨name, prev⟩], bind_eq_some_iff.mpr ⟨T, hT, bind_eq_some_iff.mpr ⟨_, hs, rfl⟩⟩,
          by rwa [records_put_singleton], hordered⟩
      · exact ⟨cs, [], bind_eq_some_iff.mpr ⟨T, hT, bind_eq_some_iff.mpr ⟨_, hs, rfl⟩⟩,
          by rwa [records_put_nil], hordered⟩
  | dropEntry id name oid =>
    refine hrel.dropped (fun T => ?_) (s.catalogSet.dropEntryNoLock · name oid) hstep ?_
      fun T hT hmem => ⟨hrel.catalog.dropEntry_spec hok (hact hmem) (hallowed T hT) oid, ?_⟩
    · unfold CatalogHistory.drop
      split <;> rfl
    · simp only [step, map_eq_bind, Function.comp_def]
      rfl
    · unfold CatalogHistory.drop
      cases hlook : h.lookup T name with
      | none => exact hrel.ordered
      | some p => exact push_ordered hrel.ordered hmem (hrel.head_visible (hallowed T hT) hlook) _ _
  | alterTableEntry id name alter =>
    refine hrel.dropped (fun T => ?_) (s.catalogSet.alterTableEntry · name alter) hstep ?_
      fun T hT hmem => ⟨hrel.catalog.alterTableEntry_spec hok (hact hmem) (hallowed T hT) alter, ?_⟩
    · unfold CatalogHistory.alter
      split <;> rfl
    · simp only [step, map_eq_bind, Function.comp_def]
      rfl
    · unfold CatalogHistory.alter
      cases hlook : h.lookup T name with
      | none => exact hrel.ordered
      | some p => exact push_ordered hrel.ordered hmem (hrel.head_visible (hallowed T hT) hlook) _ _
  | renameTableEntry id name newName alter =>
    refine hrel.changed (fun T => ?_) hstep fun T hT hmem hid => ?_
    · unfold rename add
      split
      · dsimp only
        split_ifs <;> rfl
      · rfl
    · subst hid
      have hnewest := hallowed T hT
      have hordered : ∀ name',
          VersionsSeen h.mgr ((h.rename T name newName alter).versions name') := by
        unfold rename
        cases hlook : h.lookup T name with
        | none => exact hrel.ordered
        | some p =>
          have hfree := (hrel.catalog.resolve_lookup hok hnewest hlook).2
          have hpushed := push_ordered hrel.ordered hmem
            (hrel.head_visible (hnewest.imp_right And.left) hlook) p.1 none
          exact add_ordered (h := h.push name _) hpushed hmem
            (hrel.catalog.isFree_push hok hfree p.1) p.1 _
      rcases hrel.catalog.renameTableEntry_spec hok (hact hmem) hnewest alter with
        ⟨cs, r, r', hs, hcatalog⟩ | ⟨e, hs, hcatalog⟩
      · exact ⟨cs, [r, r'], bind_eq_some_iff.mpr ⟨T, hT, bind_eq_some_iff.mpr ⟨_, hs, rfl⟩⟩,
          by rwa [records_put_pair], hordered⟩
      · exact ⟨_, [], bind_eq_some_iff.mpr ⟨T, hT, bind_eq_some_iff.mpr ⟨_, hs, rfl⟩⟩,
          by rwa [records_put_nil], hordered⟩
  | commit id =>
    obtain ⟨⟨ts, mgr⟩, hc, rfl⟩ := map_eq_some_iff.mp hstep
    obtain ⟨cs, hrun, hrel'⟩ := hrel.commit hc
    exact ⟨_, bind_eq_some_iff.mpr ⟨(ts, mgr), by rw [hrel.mgr, hc],
      bind_eq_some_iff.mpr ⟨cs, hrun, rfl⟩⟩, hrel'⟩
  | rollback id =>
    obtain ⟨mgr, hb, rfl⟩ := map_eq_some_iff.mp hstep
    -- no record has been replayed
    obtain ⟨cs, cs', hrun, hrun', hrel'⟩ :=
      hrel.failedCommit (TransactionManager.rollback_left hb) 0 0
    obtain rfl := some.inj hrun
    exact ⟨_, bind_eq_some_iff.mpr ⟨mgr, by rw [hrel.mgr, hb],
      bind_eq_some_iff.mpr ⟨cs', hrun', rfl⟩⟩, hrel'⟩
  | failedCommit id k =>
    obtain ⟨⟨ts, mgr⟩, hc, rfl⟩ := map_eq_some_iff.mp hstep
    obtain ⟨cs, cs', hrun, hrun', hrel'⟩ :=
      hrel.failedCommit (TransactionManager.commit_some hc).1 ts k
    exact ⟨_, bind_eq_some_iff.mpr ⟨(ts, mgr), by rw [hrel.mgr, hc],
      bind_eq_some_iff.mpr ⟨cs, hrun, bind_eq_some_iff.mpr ⟨cs', hrun', rfl⟩⟩⟩, hrel'⟩

end

/-- **Every run** of allowed actions. -/
theorem run_related (hrel : StoreRelated h s) {actions : List (CatalogAction K E)}
    (hok : Fold.Guarded step allowed s actions)
    (hrun : actions.foldlM CatalogHistory.step h = some h') :
    ∃ s', actions.foldlM step s = some s' ∧ StoreRelated h' s' := by
  induction actions generalizing h s with
  | nil =>
    obtain rfl := some.inj hrun
    exact ⟨s, rfl, hrel⟩
  | cons a actions ih =>
    obtain ⟨hallowed, hrest⟩ := hok
    obtain ⟨m, hm, hrun⟩ := Fold.foldlM_cons_some.mp hrun
    obtain ⟨t, ht, hrelt⟩ := hrel.step_related hallowed hm
    obtain ⟨s', hs', hrel'⟩ := ih hrelt (hrest t ht) hrun
    exact ⟨s', Fold.foldlM_cons_some.mpr ⟨t, ht, hs'⟩, hrel'⟩

end StoreRelated

/-! ### Conflicts -/

namespace StoreRelated

variable {h : CatalogHistory K E} {s : CatalogStore K E} {T : Transaction} {name : K}
  (hrel : StoreRelated h s)

include hrel

/-- The catalog contains what the history shows. -/
lemma containsEntry_eq (T : Transaction) (name : K) :
    s.catalogSet.containsEntry T name = some (h.lookup T name).isSome :=
  hrel.catalog.containsEntry_eq fun _ hid => stampOk_of_isActive hid

/-- When there is a version that `T` does not see, the newest one conflicts with it. -/
lemma checkWWConflict_newest (hT : T ∈ h.mgr.activeTransactions)
    (hunseen : ∃ v ∈ h.versions name, v.stamp.visibleTo T.id T.startTS = false) :
    ∃ newest, (s.catalogSet.entries name).head? = some newest ∧
      checkWWConflict T newest = true := by
  obtain ⟨v, hv, hunseen⟩ := hunseen
  have hok := fun id (hid : h.mgr.isActive id = true) => stampOk_of_isActive hid
  obtain ⟨w, newest, hw, hnewest, hstands⟩ := hrel.catalog.head (ne_nil_of_mem hv)
  refine ⟨newest, hnewest, ?_⟩
  rw [CatalogRelated.checkWWConflict_eq hstands (hrel.catalog.stampOk_head hok hw),
    Bool.not_eq_true', ← Bool.not_eq_true]
  intro hvis
  rw [(hrel.ordered name).visible hT hw hvis v hv] at hunseen
  cases hunseen

end StoreRelated

variable [ToString K]

namespace CatalogSet

variable {cs : CatalogSet K E} {T : Transaction} {name : K} {newest : CatalogEntry E}
  {contains : Bool}

omit [DecidableEq K] in
lemma getEntry_of_not_contains (hcontains : cs.containsEntry T name = some false) :
    cs.getEntry T name = some (.error (notExist name)) := by
  simp [getEntry, hcontains]

omit [DecidableEq K] in
/-- An entry that is there is found. -/
lemma getEntry_of_contains (hcontains : cs.containsEntry T name = some true) :
    ∃ e content, cs.getEntry T name = some (.ok e) ∧ e.content = some content := by
  have hb := hcontains
  unfold containsEntry at hb
  split_ifs at hb
  · cases hb
  · obtain ⟨e, he, hdel⟩ := map_eq_some_iff.mp hb
    obtain ⟨content, hcontent⟩ : ∃ content, e.content = some content := by
      simpa [CatalogEntry.isDeleted, isSome_iff_exists] using hdel
    exact ⟨e, content, by simp [getEntry, hcontains, he], hcontent⟩

/-- Dropping pushes a tombstone. -/
lemma dropEntryNoLock_eq (hcontains : cs.containsEntry T name = some true)
    (hnewest : (cs.entries name).head? = some newest) (oid : ℕ) :
    cs.dropEntryNoLock T name oid = some (.ok (cs.emplace name oid T.id none, newest.ptr)) := by
  simp [dropEntryNoLock, hcontains, hnewest]

section throws

variable (hcontains : cs.containsEntry T name = some contains)
  (hnewest : (cs.entries name).head? = some newest)

include hcontains hnewest

/-- Whatever is on top of the chain, a drop throws exactly when the transaction sees no entry. -/
lemma dropEntryNoLock_throws_iff (oid : ℕ) :
    (∃ e, cs.dropEntryNoLock T name oid = some (.error e)) ↔ contains = false := by
  cases contains <;> simp [dropEntryNoLock, hcontains, hnewest]

omit hnewest in
/-- Altering fails only for missing entries. -/
lemma alterTableEntry_throws_iff (alter : E → E) :
    (∃ e, cs.alterTableEntry T name alter = some (.error e)) ↔ contains = false := by
  cases contains with
  | false => simp [alterTableEntry, getEntry_of_not_contains hcontains]
  | true =>
    obtain ⟨e, content, he, -⟩ := getEntry_of_contains hcontains
    simp [alterTableEntry, he]

/-- A rename throws before it has changed anything exactly when the transaction sees no entry. -/
lemma renameTableEntry_throws_iff (newName : K) (alter : E → E) :
    (∃ e, cs.renameTableEntry T name newName alter = some (cs, .error e)) ↔ contains = false := by
  cases contains with
  | false => simp [renameTableEntry, getEntry_of_not_contains hcontains]
  | true =>
    obtain ⟨e, content, he, hcontent⟩ := getEntry_of_contains hcontains
    simp only [Bool.true_eq_false, iff_false, not_exists]
    intro message hrename
    simp only [renameTableEntry, he, hcontent, dropEntryNoLock_eq hcontains hnewest,
      Option.bind_eq_bind, bind_some] at hrename
    obtain ⟨x, -, hrename⟩ := bind_eq_some_iff.mp hrename
    cases x with
    | ok p => cases hrename
    | error e' =>
      -- the tombstone is on top of the newest version
      have hchain := congrArg (fun r => (r.1.entries name).length) (some.inj hrename)
      simp [emplace, setChain] at hchain

section conflict

variable (hconflict : checkWWConflict T newest = true)

include hconflict

/-- On top of a version of a concurrent transaction, nothing is created. -/
lemma createEntryNoLock_conflict (oid : ℕ) (content : E) :
    ∃ e, cs.createEntryNoLock T name oid content = some (.error e) := by
  unfold createEntryNoLock
  cases contains <;> simp [hcontains, hnewest, hconflict]

/-- A conflicting creation changes no entry. -/
lemma createEntry_conflict (content : E) : ∃ cs' e,
    cs.createEntry T name content = some (cs', .error e) ∧ cs'.entries = cs.entries := by
  have hcontains' : containsEntry { cs with nextOID := cs.nextOID + 1 } T name = some contains :=
    hcontains
  obtain ⟨e, he⟩ := createEntryNoLock_conflict hcontains' hnewest hconflict cs.nextOID content
  exact ⟨{ cs with nextOID := cs.nextOID + 1 }, e, by simp [createEntry, he], rfl⟩

lemma renameTableEntry_conflict {old : K} (hne : old ≠ name) {sees : Bool}
    (hold : cs.containsEntry T old = some sees) (alter : E → E) : ∃ cs' e,
      cs.renameTableEntry T old name alter = some (cs', .error e) ∧
        cs'.entries name = cs.entries name := by
  cases sees with
  | false =>
    exact ⟨cs, _, by simp [renameTableEntry, getEntry_of_not_contains hold]; rfl, rfl⟩
  | true =>
    obtain ⟨e, content, he, hcontent⟩ := getEntry_of_contains hold
    obtain ⟨top, htop⟩ : ∃ top, (cs.entries old).head? = some top := by
      cases hchain : cs.entries old with
      | nil => simp [containsEntry, hchain] at hold
      | cons top rest => exact ⟨top, rfl⟩
    -- the tombstone is on another chain
    have hsame : (cs.emplace old e.oid T.id none).entries name = cs.entries name :=
      update_of_ne hne.symm ..
    have hcontains' : (cs.emplace old e.oid T.id none).containsEntry T name = some contains := by
      rw [containsEntry, hsame]
      exact hcontains
    obtain ⟨message, hcreate⟩ := createEntryNoLock_conflict hcontains' (hsame ▸ hnewest) hconflict
      e.oid (alter content)
    refine ⟨_, message, ?_, hsame⟩
    simp [renameTableEntry, he, hcontent, dropEntryNoLock_eq hold htop, hcreate]

end conflict

end throws

end CatalogSet

/-- What a transaction meets that changes an entry of which it does not see the newest version:
creating the entry, and renaming another one to its name, throws; dropping, altering and renaming it
throws exactly when the transaction sees no entry. -/
structure CatalogStore.Conflicts (s : CatalogStore K E) (T : Transaction) (name : K)
    (sees : Bool) : Prop where
  create : ∀ content, ∃ cs e, s.catalogSet.createEntry T name content = some (cs, .error e) ∧
    cs.entries = s.catalogSet.entries
  renameTo : ∀ old alter, old ≠ name → ∃ cs e,
    s.catalogSet.renameTableEntry T old name alter = some (cs, .error e) ∧
      cs.entries name = s.catalogSet.entries name
  drop : ∀ oid, (∃ e, s.catalogSet.dropEntryNoLock T name oid = some (.error e)) ↔ sees = false
  alter : ∀ alter,
    (∃ e, s.catalogSet.alterTableEntry T name alter = some (.error e)) ↔ sees = false
  rename : ∀ newName alter, (∃ e, s.catalogSet.renameTableEntry T name newName alter =
    some (s.catalogSet, .error e)) ↔ sees = false

/-- **No change of a catalog entry is lost.**  In every interleaving in which a transaction that
drops, alters or renames an entry that it sees also sees the newest version of it: every version of
an entry was written by a transaction that saw the version below it.  And when another transaction
has changed an entry, beside a running transaction or after its start, and was not rolled back, a
creation of the entry and a rename to its name throw; a drop, an alteration and a rename of the
entry throw exactly when the running transaction sees none. -/
theorem catalogStore_no_lost_update {catalog : K → Option (ℕ × E)}
    {actions : List (CatalogAction K E)} {h : CatalogHistory K E}
    (hrun : actions.foldlM CatalogHistory.step (.init catalog) = some h)
    (hok : Fold.Guarded step allowed (.init catalog) actions) :
    ∃ s, actions.foldlM step (.init catalog) = some s ∧
      (∀ name, List.Forall₂ Stands (h.versions name) (s.catalogSet.entries name) ∧
        (h.versions name).IsChain EntryVersion.Saw) ∧
      ∀ T ∈ h.mgr.activeTransactions, ∀ name,
        (∃ v ∈ h.versions name, v.stamp.visibleTo T.id T.startTS = false) →
          s.Conflicts T name (h.lookup T name).isSome := by
  obtain ⟨s, hs, hrel⟩ := (StoreRelated.init catalog).run_related hok hrun
  refine ⟨s, hs, fun name => ⟨(hrel.catalog.chains name).stands, (hrel.ordered name).saw⟩,
    fun T hT name hunseen => ?_⟩
  have hcontains := hrel.containsEntry_eq T
  obtain ⟨newest, hnewest, hconflict⟩ := hrel.checkWWConflict_newest hT hunseen
  exact {
    create := createEntry_conflict (hcontains name) hnewest hconflict
    renameTo := fun old alter hne =>
      renameTableEntry_conflict (hcontains name) hnewest hconflict hne (hcontains old) alter
    drop := dropEntryNoLock_throws_iff (hcontains name) hnewest
    alter := alterTableEntry_throws_iff (hcontains name)
    rename := renameTableEntry_throws_iff (hcontains name) hnewest }

/-- An entry that the checkpoint has. -/
def oneEntry (name : ℕ) : Option (ℕ × ℕ) := if name = 7 then some (0, 70) else none

/-- Of two transactions, one alters the entry and commits. -/
def alteredBeside : List (CatalogAction ℕ ℕ) :=
  [.begin, .begin, .alterTableEntry (startTransactionID + 1) 7 (· + 1),
    .commit (startTransactionID + 1)]

/-- The other one, which runs beside it. -/
def secondTransaction : Transaction where
  id := startTransactionID + 2
  startTS := 1
  id_lt := startTransactionID_add_two_lt
  id_eq_or_le := start_le_add_two
  startTS_lt := one_lt_start

theorem catalogStore_no_lost_update_altered :
    ∃ s, alteredBeside.foldlM step (.init oneEntry) = some s ∧
      s.Conflicts secondTransaction 7 true := by
  have hfacts : (alteredBeside.foldlM CatalogHistory.step (.init oneEntry)).map (fun h =>
      (decide (secondTransaction ∈ h.mgr.activeTransactions), (h.versions 7).any fun v =>
        !v.stamp.visibleTo secondTransaction.id secondTransaction.startTS,
        (h.lookup secondTransaction 7).isSome)) = some (true, true, true) := by decide +kernel
  obtain ⟨h, hrun, hfacts⟩ := map_eq_some_iff.mp hfacts
  obtain ⟨hT, hunseen, hsees⟩ : secondTransaction ∈ h.mgr.activeTransactions ∧
      (∃ v ∈ h.versions 7,
        v.stamp.visibleTo secondTransaction.id secondTransaction.startTS = false) ∧
      (h.lookup secondTransaction 7).isSome = true := by simpa using hfacts
  obtain ⟨s, hs, -, hconflict⟩ := catalogStore_no_lost_update hrun (by decide +kernel)
  exact ⟨s, hs, hsees ▸ hconflict _ hT 7 hunseen⟩

/-- Then the other one drops the entry, which does not throw, and commits. -/
def droppedBeside : List (CatalogAction ℕ ℕ) :=
  alteredBeside ++ [.dropEntry secondTransaction.id 7 0, .commit secondTransaction.id]

/-- The altered entry is gone. -/
theorem catalogSet_conflict_overwritten :
    (alteredBeside.foldlM step (.init oneEntry)).map (fun s =>
        (s.mgr.find? secondTransaction.id,
          (s.catalogSet.getEntry dummyCheckpointTransaction 7).map fun r =>
            r.toOption.map CatalogEntry.content)) =
      some (some secondTransaction, some (some (some 71))) ∧
    (droppedBeside.foldlM step (.init oneEntry)).map (fun s =>
      s.catalogSet.containsEntry dummyCheckpointTransaction 7) = some (some false) := by
  decide +kernel

end Ladybug
