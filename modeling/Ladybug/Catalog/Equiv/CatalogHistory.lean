import Ladybug.Catalog.Equiv.CatalogSet

/-!
# Correctness of the operations of a catalog set

`CatalogRelated` lifts `ChainRelated` to the names of a catalog set. Each operation answers as the
history says and keeps the relation, with the records that its caller pushes, when the transaction
sees no entry or sees its newest version.
-/

namespace Ladybug

open Mvcc List Function CatalogSet CatalogHistory Option
open CatalogHistory (push)

variable {K E : Type} {active : ℕ → Bool}

/-- The set with the records about it, per name and transaction, stands for the history. -/
structure CatalogRelated (active : ℕ → Bool) (h : CatalogHistory K E) (cs : CatalogSet K E)
    (records : K → ℕ → List ℕ) : Prop where
  nextOID : cs.nextOID = h.nextOID
  chains : ∀ name, ChainRelated active cs.nextPtr (h.versions name) (cs.entries name) (records name)

/-- The records after a transaction has pushed one. -/
def pushRecord [DecidableEq K] (records : K → ℕ → List ℕ) (id : ℕ) (r : CatalogEntryRecord K) :
    K → ℕ → List ℕ :=
  Function.update records r.name
    (Function.update (records r.name) id (records r.name id ++ [r.catalogEntry]))

lemma ChainRelated.mono {nextPtr nextPtr' : ℕ} {vs : List (EntryVersion E)}
    {c : List (CatalogEntry E)} {records : ℕ → List ℕ}
    (h : ChainRelated active nextPtr vs c records) (hle : nextPtr ≤ nextPtr') :
    ChainRelated active nextPtr' vs c records :=
  { h with ptr_lt := fun e he => lt_of_lt_of_le (h.ptr_lt e he) hle }

namespace CatalogRelated

variable {h : CatalogHistory K E} {cs : CatalogSet K E} {records : K → ℕ → List ℕ}
  {T : Transaction} {name : K} {v : EntryVersion E} {e : CatalogEntry E} {content : E} {oid : ℕ}

lemma entries_eq_nil_iff (hrel : CatalogRelated active h cs records) :
    cs.entries name = [] ↔ h.versions name = [] := by
  rw [← length_eq_zero_iff, ← length_eq_zero_iff, (hrel.chains name).stands.length_eq]

lemma head (hrel : CatalogRelated active h cs records) (hne : h.versions name ≠ []) :
    ∃ v e, (h.versions name).head? = some v ∧ (cs.entries name).head? = some e ∧ Stands v e := by
  have hstands := (hrel.chains name).stands
  cases hvs : h.versions name with
  | nil => exact absurd hvs hne
  | cons v vs =>
    rw [hvs] at hstands
    obtain ⟨e, c, hve, -, hc⟩ := List.forall₂_cons_left_iff.mp hstands
    exact ⟨v, e, rfl, by rw [hc]; rfl, hve⟩

/-- When the transaction sees the newest version, that is the one it finds. -/
lemma newest (hnewest : cs.newestReadable T name)
    (he : traverseVersionChains T (cs.entries name) = some e) :
    (cs.entries name).head? = some e := by
  cases hc : cs.entries name with
  | nil => simp [hc, traverseVersionChains] at he
  | cons e0 c =>
    have hread := hnewest e0 (by rw [hc]; rfl)
    rw [traverseVersionChains, hc, find?_cons_of_pos hread] at he
    rw [head?_cons, he]

/-! ### Reading -/

section reading

variable (hrel : CatalogRelated active h cs records)
  (hactive : ∀ id, active id = true → StampOk (some (.active id)))

include hrel hactive

lemma traverse (hne : h.versions name ≠ []) :
    ∃ v e, (h.versions name).find? (fun v => v.stamp.visibleTo T.id T.startTS) = some v ∧
      traverseVersionChains T (cs.entries name) = some e ∧ Stands v e := by
  have hc := hrel.chains name
  rcases ChainRelated.find?_stands hc.stands (fun v hv => hc.stampOk hactive hv) T with
    ⟨hnone, -⟩ | hsome
  · -- the entry at the bottom of a chain is there for everybody
    obtain ⟨id, own, old, hvs, hs⟩ := hc.stacked.resolve_left fun h => hne h.1
    obtain ⟨v, hv, hv0⟩ := hs.bottom
    have := find?_eq_none.mp hnone v (hvs ▸ mem_append_right _ hv)
    simp [hv0] at this
  · exact hsome

lemma containsEntry_eq : cs.containsEntry T name = some (h.lookup T name).isSome := by
  unfold containsEntry CatalogHistory.lookup
  by_cases hne : h.versions name = []
  · rw [hrel.entries_eq_nil_iff.mpr hne, hne]
    rfl
  · obtain ⟨v, e, hv, he, hve⟩ := hrel.traverse hactive (T := T) hne
    have hc : (cs.entries name).isEmpty = false := by
      rwa [isEmpty_eq_false_iff, Ne, hrel.entries_eq_nil_iff]
    rw [hc, he, hv]
    simp only [Bool.false_eq_true, if_false, map_some, bind_some,
      CatalogEntry.isDeleted, hve.content]
    cases v.content <;> rfl

/-- The other case, when the transaction sees an entry. -/
lemma resolve_lookup {P : Prop} (hor : cs.containsEntry T name = some false ∨ P)
    (hsome : h.lookup T name = some (oid, content)) : P := by
  refine hor.resolve_left fun hfalse => ?_
  rw [hrel.containsEntry_eq hactive, hsome] at hfalse
  simp at hfalse

lemma stampOk_head (hv : (h.versions name).head? = some v) : StampOk (some v.stamp) :=
  (hrel.chains name).stampOk hactive (mem_of_mem_head? hv)

variable [ToString K]

lemma getEntry_none (hnone : h.lookup T name = none) :
    cs.getEntry T name = some (.error (notExist name)) := by
  rw [getEntry, hrel.containsEntry_eq hactive, hnone]
  rfl

lemma getEntry_some (hsome : h.lookup T name = some (oid, content)) :
    ∃ e, cs.getEntry T name = some (.ok e) ∧
      traverseVersionChains T (cs.entries name) = some e ∧ e.oid = oid ∧
      e.content = some content := by
  have hne : h.versions name ≠ [] := by
    intro hnil
    simp [CatalogHistory.lookup, hnil] at hsome
  obtain ⟨v, e, hv, he, hve⟩ := hrel.traverse hactive (T := T) hne
  refine ⟨e, ?_, he, ?_, ?_⟩
  · rw [getEntry, hrel.containsEntry_eq hactive, hsome, he]
    rfl
  all_goals
    rw [CatalogHistory.lookup, hv, Option.bind_some] at hsome
    obtain ⟨x, hx, hpair⟩ := map_eq_some_iff.mp hsome
    obtain ⟨rfl, rfl⟩ := Prod.mk.inj hpair
  · exact hve.oid
  · exact hve.content.trans hx

/-- The entry that the transaction is to replace is the newest one. -/
lemma current (hnewest : cs.newestReadable T name)
    (hsome : h.lookup T name = some (oid, content)) :
    ∃ v e, (h.versions name).head? = some v ∧ v.stamp.visibleTo T.id T.startTS = true ∧
      (cs.entries name).head? = some e ∧ cs.getEntry T name = some (.ok e) ∧ e.oid = oid ∧
      e.content = some content := by
  obtain ⟨e, hget, htrav, hoid, hcontent⟩ := hrel.getEntry_some hactive hsome
  have he := newest hnewest htrav
  have hne : h.versions name ≠ [] := by
    intro hnil
    simp [CatalogHistory.lookup, hnil] at hsome
  obtain ⟨v, e', hv, he', hve⟩ := hrel.head hne
  obtain rfl := Option.some.inj (he.symm.trans he')
  refine ⟨v, e, hv, ?_, he, hget, hoid, hcontent⟩
  rw [← ChainRelated.readableBy_eq hve (hrel.stampOk_head hactive hv)]
  exact hnewest e he

end reading

lemma checkWWConflict_eq (hve : Stands v e) (hok : StampOk (some v.stamp)) (T : Transaction) :
    checkWWConflict T e = !v.stamp.visibleTo T.id T.startTS := by
  rw [checkWWConflict, hve.timestamp]
  rcases hst : v.stamp with id | ts <;> rw [hst] at hok
  · have h1 : startTransactionID ≤ id := hok.1
    have h2 : ¬id < startTransactionID := by omega
    simp [h1, h2, bne]
  · have h1 : ts < startTransactionID := hok
    have h2 : ¬startTransactionID ≤ ts := by omega
    by_cases hts : ts ≤ T.startTS
    · simp [h1, h2, hts, not_lt.mpr hts]
    · simp [h1, h2, hts, not_le.mp hts]

/-! ### New versions -/

variable [DecidableEq K]

section

variable (hrel : CatalogRelated active h cs records)

include hrel

lemma emplace (hT : active T.id = true) {v0 : EntryVersion E}
    (hv₀ : (h.versions name).head? = some v0) (hvis : v0.stamp.visibleTo T.id T.startTS = true)
    {e0 : CatalogEntry E} (he0 : (cs.entries name).head? = some e0) (oid : ℕ) (content : Option E) :
    CatalogRelated active (h.push name ⟨oid, .active T.id, T.startTS, content⟩)
      (cs.emplace name oid T.id content) (pushRecord records T.id ⟨name, e0.ptr⟩) := by
  refine ⟨hrel.nextOID, fun name' => ?_⟩
  by_cases hname : name' = name
  · subst hname
    simp only [push, emplace, setChain, pushRecord, update_self]
    exact (hrel.chains name').push hT hv₀ hvis he0 oid content
  · simp only [push, CatalogSet.emplace, setChain, pushRecord, update_of_ne hname]
    exact (hrel.chains name').mono (Nat.le_succ _)

lemma emplaceDummy (hnil : h.versions name = []) (oid : ℕ) :
    CatalogRelated active (h.push name ⟨oid, .committed 0, 0, none⟩) (cs.emplace name oid 0 none)
      records := by
  have hc := hrel.entries_eq_nil_iff.mpr hnil
  refine ⟨hrel.nextOID, fun name' => ?_⟩
  by_cases hname : name' = name
  · subst hname
    simp only [push, CatalogSet.emplace, setChain, update_self, hnil, hc]
    exact (hrel.chains name').start oid hnil
  · simp only [push, CatalogSet.emplace, setChain, update_of_ne hname]
    exact (hrel.chains name').mono (Nat.le_succ _)

/-- The end of a creation of an entry that the transaction may create. -/
lemma createOn (hT : active T.id = true) (hfree : h.isFree T name = true) (oid : ℕ) (content : E) :
    CatalogRelated active (h.add T name oid content) (cs.createOn T name oid content).1
      (pushRecord records T.id ⟨name, (cs.createOn T name oid content).2⟩) := by
  unfold CatalogHistory.add CatalogSet.createOn
  by_cases hnil : h.versions name = []
  · have hc := hrel.entries_eq_nil_iff.mpr hnil
    simp only [hnil, hc, isEmpty_nil, if_true]
    have hdummy := hrel.emplaceDummy hnil oid
    have hv : (h.push name ⟨oid, .committed 0, 0, none⟩).versions name =
        [⟨oid, .committed 0, 0, none⟩] := by simp [push, hnil]
    have he : (cs.emplace name oid 0 none).entries name = [⟨cs.nextPtr, oid, 0, none⟩] := by
      simp [CatalogSet.emplace, setChain, hc]
    rw [he]
    exact hdummy.emplace hT (by rw [hv]; rfl) (by simp) (by rw [he]; rfl) oid (some content)
  · obtain ⟨v, e, hv, he, hve⟩ := hrel.head hnil
    have hc : (cs.entries name).isEmpty = false := by
      rwa [isEmpty_eq_false_iff, Ne, hrel.entries_eq_nil_iff]
    have hvs : (h.versions name).isEmpty = false := by rwa [isEmpty_eq_false_iff]
    simp only [hvs, hc, Bool.false_eq_true, if_false, he, map_some, getD_some]
    simp only [isFree, hv, all_some, Bool.and_eq_true] at hfree
    exact hrel.emplace hT hv hfree.1 he oid (some content)

end

section operations

variable [ToString K] (hrel : CatalogRelated active h cs records)
  (hactive : ∀ id, active id = true → StampOk (some (.active id)))

include hrel hactive

/-- `createEntryNoLock` creates exactly the entries that the transaction may create. -/
lemma createEntryNoLock_eq (T : Transaction) (name : K) (oid : ℕ) (content : E) :
    if h.isFree T name = true then
      cs.createEntryNoLock T name oid content = some (.ok (cs.createOn T name oid content))
    else ∃ e, cs.createEntryNoLock T name oid content = some (.error e) := by
  rw [createEntryNoLock, hrel.containsEntry_eq hactive]
  by_cases hnil : h.versions name = []
  · have hc := hrel.entries_eq_nil_iff.mpr hnil
    rw [if_pos (by simp [CatalogHistory.isFree, hnil]), CatalogHistory.lookup, hnil, hc]
    rfl
  · obtain ⟨v, e, hv, he, hve⟩ := hrel.head hnil
    have hww := checkWWConflict_eq hve (hrel.stampOk_head hactive hv) T
    have hdel : e.isDeleted = v.content.isNone := by rw [CatalogEntry.isDeleted, hve.content]
    have hfree : h.isFree T name = (v.stamp.visibleTo T.id T.startTS && v.content.isNone) := by
      rw [isFree, hv]
      rfl
    rw [hfree, he]
    cases hvis : v.stamp.visibleTo T.id T.startTS with
    | false =>
      -- somebody has a newer version
      rw [hvis] at hww
      cases hlook : (h.lookup T name).isSome with
      | true => exact ⟨_, rfl⟩
      | false => exact ⟨_, by simp [hww]; rfl⟩
    | true =>
      rw [hvis] at hww
      -- the newest version is the one that the transaction sees
      have hlook : h.lookup T name = v.content.map (v.oid, ·) := by
        obtain ⟨vs, hvs⟩ : ∃ vs, h.versions name = v :: vs := ⟨_, (cons_head?_tail hv).symm⟩
        rw [CatalogHistory.lookup, hvs]
        simp [hvis]
      rw [hlook]
      cases hcont : v.content with
      | none => simp [hww, hdel, hcont]
      | some x => exact ⟨_, rfl⟩

omit [ToString K] in
/-- After the drop of a rename the new name is free. -/
lemma isFree_push {newName : K} (hfree : newName = name ∨ cs.free T newName) (oid : ℕ) :
    (h.push name ⟨oid, .active T.id, T.startTS, none⟩).isFree T newName = true := by
  unfold isFree push
  by_cases hname : newName = name
  · simp [hname]
  · simp only [update_of_ne hname]
    by_cases hnil : h.versions newName = []
    · simp [hnil]
    · obtain ⟨w, f, hw, hf, hwf⟩ := hrel.head hnil
      obtain ⟨hread, hdel⟩ := (hfree.resolve_left hname) f hf
      rw [ChainRelated.readableBy_eq hwf (hrel.stampOk_head hactive hw)] at hread
      rw [CatalogEntry.isDeleted, hwf.content] at hdel
      simp [hw, hread, hdel]

section

variable (hT : active T.id = true)

include hT

lemma createEntry_spec (content : E) :
    (∃ cs' prev, cs.createEntry T name content = some (cs', .ok prev) ∧
        CatalogRelated active (h.create T name content) cs'
          (pushRecord records T.id ⟨name, prev⟩)) ∨
      ∃ cs' e, cs.createEntry T name content = some (cs', .error e) ∧
        CatalogRelated active (h.create T name content) cs' records := by
  have hrel' : CatalogRelated active { h with nextOID := h.nextOID + 1 }
      { cs with nextOID := cs.nextOID + 1 } records :=
    ⟨by simp only [hrel.nextOID], hrel.chains⟩
  have hcreate := hrel'.createEntryNoLock_eq hactive T name cs.nextOID content
  change if h.isFree T name = true then _ else _ at hcreate
  unfold createEntry create
  split_ifs at hcreate with hfree
  · refine .inl ⟨_, _, bind_eq_some_iff.mpr ⟨_, hcreate, rfl⟩, ?_⟩
    rw [if_pos hfree]
    have hcreated := hrel'.createOn hT hfree cs.nextOID content
    rw [hrel.nextOID] at hcreated ⊢
    exact hcreated
  · obtain ⟨e, he⟩ := hcreate
    refine .inr ⟨_, e, bind_eq_some_iff.mpr ⟨_, he, rfl⟩, ?_⟩
    rw [if_neg hfree]
    exact hrel'

section

variable (hnewest : cs.containsEntry T name = some false ∨ cs.newestReadable T name)

include hnewest

/-- A drop puts a deleted version on the chain and records the one below it, or throws. -/
lemma dropEntry_spec (oid : ℕ) :
    (∃ cs' prev, cs.dropEntryNoLock T name oid = some (.ok (cs', prev)) ∧
        CatalogRelated active (h.drop T name oid) cs' (pushRecord records T.id ⟨name, prev⟩)) ∨
      ∃ e, cs.dropEntryNoLock T name oid = some (.error e) ∧
        CatalogRelated active (h.drop T name oid) cs records := by
  unfold dropEntryNoLock CatalogHistory.drop
  rw [hrel.containsEntry_eq hactive]
  cases hlook : h.lookup T name with
  | none => exact .inr ⟨_, rfl, hrel⟩
  | some p =>
    have hnew := hrel.resolve_lookup hactive hnewest hlook
    obtain ⟨v, e, hv, hvis, he, -, -, -⟩ := hrel.current hactive hnew hlook
    refine .inl ⟨_, e.ptr, by rw [he]; rfl, ?_⟩
    exact hrel.emplace hT hv hvis he oid none

/-- An alteration puts the altered version on the chain, or throws. -/
lemma alterTableEntry_spec (alter : E → E) :
    (∃ cs' prev, cs.alterTableEntry T name alter = some (.ok (cs', prev)) ∧
        CatalogRelated active (h.alter T name alter) cs' (pushRecord records T.id ⟨name, prev⟩)) ∨
      ∃ e, cs.alterTableEntry T name alter = some (.error e) ∧
        CatalogRelated active (h.alter T name alter) cs records := by
  unfold alterTableEntry CatalogHistory.alter
  cases hlook : h.lookup T name with
  | none =>
    rw [hrel.getEntry_none hactive hlook]
    exact .inr ⟨_, rfl, hrel⟩
  | some p =>
    have hnew := hrel.resolve_lookup hactive hnewest hlook
    obtain ⟨v, e, hv, hvis, he, hget, hoid, hcontent⟩ := hrel.current hactive hnew hlook
    refine .inl ⟨_, e.ptr, by rw [hget]; rfl, ?_⟩
    rw [hoid, hcontent]
    exact hrel.emplace hT hv hvis he p.1 (some (alter p.2))

end

/-- A rename puts a deleted version on the chain of the old name and the altered entry on that of
the new one, or throws before it has changed anything. -/
lemma renameTableEntry_spec {newName : K}
    (hnewest : cs.containsEntry T name = some false ∨
      cs.newestReadable T name ∧ (newName = name ∨ cs.free T newName)) (alter : E → E) :
    (∃ cs' r r', cs.renameTableEntry T name newName alter = some (cs', .ok [r, r']) ∧
        CatalogRelated active (h.rename T name newName alter) cs'
          (pushRecord (pushRecord records T.id r) T.id r')) ∨
      ∃ e, cs.renameTableEntry T name newName alter = some (cs, .error e) ∧
        CatalogRelated active (h.rename T name newName alter) cs records := by
  unfold renameTableEntry rename
  cases hlook : h.lookup T name with
  | none =>
    rw [hrel.getEntry_none hactive hlook]
    exact .inr ⟨_, rfl, hrel⟩
  | some p =>
    obtain ⟨hnew, hfree⟩ := hrel.resolve_lookup hactive hnewest hlook
    obtain ⟨v, e, hv, hvis, he, hget, hoid, hcontent⟩ := hrel.current hactive hnew hlook
    -- the old name is dropped first
    have hdrop : cs.dropEntryNoLock T name e.oid =
        some (.ok (cs.emplace name e.oid T.id none, e.ptr)) := by
      rw [dropEntryNoLock, hrel.containsEntry_eq hactive, hlook, he]
      rfl
    have hrel' := hrel.emplace hT hv hvis he e.oid none
    have hfree' := hrel.isFree_push hactive hfree e.oid
    have hcreate := hrel'.createEntryNoLock_eq hactive T newName e.oid (alter p.2)
    rw [if_pos hfree'] at hcreate
    set created := (cs.emplace name e.oid T.id none).createOn T newName e.oid (alter p.2)
      with hcreated
    refine .inl ⟨created.1, ⟨name, e.ptr⟩, ⟨newName, created.2⟩, ?_, ?_⟩
    · rw [hget]
      show (e.content.bind _) = _
      rw [hcontent, bind_some]
      show ((cs.dropEntryNoLock T name e.oid).bind _) = _
      rw [hdrop, bind_some]
      exact bind_eq_some_iff.mpr ⟨_, hcreate, rfl⟩
    · have hcreated' := hrel'.createOn hT hfree' e.oid (alter p.2)
      simp only [← hoid]
      exact hcreated'

end

end operations

end CatalogRelated

end Ladybug
