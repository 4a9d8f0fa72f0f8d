import Ladybug.Storage.Equiv.VersionHistory

/-!
# Write-write conflicts on deletions

* `HeldBy.step`, `HeldBy.run`: only the rollback of the transaction that deleted a row frees it.
* `versionInfo_delete_conflict`: what later deletions of the row return, and that nobody sees them.
-/

namespace Ladybug

open Mvcc TransactionManager VersionInfo

variable {cap numCheckpointed id row : ℕ} {h h' : RowHistory}

/-- Transaction `id` has deleted the row, and has not been rolled back. -/
structure HeldBy (id row : ℕ) (h : RowHistory) : Prop where
  /-- the id is not handed out again -/
  le : id ≤ h.mgr.lastTransactionID
  deleted : h.deleted row = some (.active id) ∨
    h.mgr.isActive id = false ∧ ∃ ts, h.deleted row = some (.committed ts)

namespace HeldBy

lemma begin {mgr : TransactionManager} (hheld : HeldBy id row h)
    (hb : h.mgr.beginTransaction = some mgr) : HeldBy id row { h with mgr := mgr } := by
  obtain ⟨T, hactive, hid, hlast, -⟩ := begin_fields hb
  have hle := hheld.le
  refine ⟨by simp only [hlast]; omega, hheld.deleted.imp_right fun ⟨hinactive, hts⟩ => ⟨?_, hts⟩⟩
  rw [isActive] at hinactive ⊢
  rw [hactive, List.any_append, hinactive]
  simp
  omega

/-- Every action but the rollback of the transaction keeps the deletion. -/
lemma step {a : VersionAction} (hheld : HeldBy id row h) (ha : a ≠ .rollback id)
    (hstep : h.step numCheckpointed a = some h') : HeldBy id row h' := by
  have hsome : h.deleted row ≠ none := by
    rcases hheld.deleted with hown | ⟨-, ts, hts⟩
    · simp [hown]
    · simp [hts]
  cases a with
  | begin =>
    obtain ⟨mgr, hb, rfl⟩ := Option.map_eq_some_iff.mp hstep
    exact hheld.begin hb
  | append t startRow n =>
    simp only [RowHistory.step] at hstep
    split_ifs at hstep
    obtain rfl := Option.some.inj hstep
    exact ⟨hheld.le, hheld.deleted⟩
  | delete t r =>
    simp only [RowHistory.step] at hstep
    split_ifs at hstep with hg hnone <;> obtain rfl := Option.some.inj hstep
    -- a row that is deleted is not deleted again
    · have hne : row ≠ r := fun heq => hsome (heq ▸ hnone)
      refine ⟨hheld.le, ?_⟩
      simp only [Function.update_of_ne hne]
      exact hheld.deleted
    · exact ⟨hheld.le, hheld.deleted⟩
  | commit t =>
    obtain ⟨⟨ts, mgr⟩, hc, rfl⟩ := Option.map_eq_some_iff.mp hstep
    obtain ⟨hleft, -⟩ := commit_some hc
    refine ⟨hheld.le.trans hleft.transactionID.ge, ?_⟩
    rcases hheld.deleted with hown | ⟨hinactive, ts', hts⟩
    -- the stamp of the deletion is committed with its transaction
    · by_cases ht : id = t
      · exact .inr ⟨by simp [hleft.isActive_eq, ht], ts, by simp [hown, Stamp.commit, ht]⟩
      · exact .inl (by simp [hown, Stamp.commit, ht])
    · exact .inr ⟨by simp [hleft.isActive_eq, hinactive], ts', by simp [hts, Stamp.commit]⟩
  | rollback t =>
    obtain ⟨mgr, hb, rfl⟩ := Option.map_eq_some_iff.mp hstep
    have hleft := rollback_left hb
    have hne : id ≠ t := fun heq => ha (heq ▸ rfl)
    refine ⟨hheld.le.trans hleft.transactionID.ge, ?_⟩
    rcases hheld.deleted with hown | ⟨hinactive, ts, hts⟩
    · exact .inl (by simp [RowHistory.rolledBack, hown, forget, hne])
    · exact .inr ⟨by simp [RowHistory.rolledBack, hleft.isActive_eq, hinactive], ts,
        by simp [RowHistory.rolledBack, hts, forget]⟩

lemma run {as : List VersionAction} (hheld : HeldBy id row h) (has : .rollback id ∉ as)
    (hrun : as.foldlM (RowHistory.step numCheckpointed) h = some h') : HeldBy id row h' := by
  induction as generalizing h with
  | nil => exact Option.some.inj hrun ▸ hheld
  | cons a as ih =>
    rw [List.mem_cons, not_or] at has
    obtain ⟨m, hm, hrest⟩ := Fold.foldlM_cons_some.mp hrun
    exact ih (hheld.step (Ne.symm has.1) hm) has.2 hrest

end HeldBy

/-- **Write-write conflicts on deletions.**  Once a transaction has deleted a row, and while it is
not rolled back, no deletion of the row succeeds: that of another transaction throws, and that of
the same one returns `false`.  Whenever a deletion does not succeed, every transaction selects the
rows that it selected before. -/
theorem versionInfo_delete_conflict (hcap : 0 < cap) {before after : List VersionAction}
    (hrun : (before ++ .delete id row :: after).foldlM (RowHistory.step numCheckpointed)
      (.init numCheckpointed) = some h) :
    ∃ s₀ s, before.foldlM VersionStore.step (.init cap) = some s₀ ∧
      (before ++ .delete id row :: after).foldlM VersionStore.step (.init cap) = some s ∧
      ∀ id' row', h.mgr.isActive id' → h.deletable id' row' →
        ((s₀.info.delete_ id row).2 = .ok true → .rollback id ∉ after → row' = row →
          if id' = id then (s.info.delete_ id' row').2 = .ok false
          else ∃ message, (s.info.delete_ id' row').2 = .error message) ∧
        ((s.info.delete_ id' row').2 ≠ .ok true → ∀ T : Transaction,
          (∀ r < h.numRows, (s.info.delete_ id' row').1.isSelected T.startTS T.id r =
            s.info.isSelected T.startTS T.id r) ∧
          ∀ startRow n sv, startRow + n ≤ h.numRows →
            ((s.info.delete_ id' row').1.getSelVectorToScan T.startTS T.id sv startRow n).map
                SelectionVector.getSelectedPositions =
              (s.info.getSelVectorToScan T.startTS T.id sv startRow n).map
                SelectionVector.getSelectedPositions) := by
  obtain ⟨h0, hrun0, hrest⟩ := Fold.foldlM_append_some.mp hrun
  obtain ⟨h1, hdelete, hafter⟩ := Fold.foldlM_cons_some.mp hrest
  obtain ⟨s₀, hs0, hrel0⟩ := run_related hcap hrun0
  obtain ⟨s, hs, hrel⟩ := run_related hcap hrun
  refine ⟨s₀, s, hs0, hs, fun id' row' hact hrow => ⟨?_, fun hne T => ?_⟩⟩
  · rintro hsuccess hkept rfl
    simp only [RowHistory.step] at hdelete
    split_ifs at hdelete with hg hnone <;> obtain rfl := Option.some.inj hdelete
    all_goals have htrue := (hrel0.delete_spec hcap hg.1 hg.2).2.1.mp hsuccess
    · -- the row is held from the successful deletion on
      obtain ⟨t, ht, hid⟩ := isActive_iff.mp hg.1
      have hfirst : HeldBy id row'
          { h0 with deleted := Function.update h0.deleted row' (some (.active id)) } :=
        ⟨hid ▸ (h0.mgr.active_le t ht).2.1, .inl (Function.update_self ..)⟩
      have hheld := hfirst.run hkept hafter
      obtain ⟨-, htrue', hfalse⟩ := hrel.delete_spec hcap hact hrow
      split_ifs with heq
      · subst heq
        refine hfalse.mpr (hheld.deleted.resolve_right fun hinactive => ?_)
        exact Bool.false_ne_true (hinactive.1.symm.trans hact)
      · cases hres : (s.info.delete_ id' row').2 with
        | error message => exact ⟨message, rfl⟩
        | ok b =>
          rw [hres] at htrue' hfalse
          cases b <;> rcases hheld.deleted with hown | ⟨-, ts, hts⟩ <;> simp_all
    · exact absurd htrue hnone
  -- a deletion that does not succeed leaves the deletions as they are
  · obtain ⟨hrep, htrue, -⟩ := hrel.delete_spec hcap hact hrow
    rw [if_neg fun hnone => hne (htrue.mpr hnone)] at hrep
    have ho := hrel.ok
    refine ⟨fun r hr => ?_, fun startRow n sv hle => ?_⟩
    · rw [isSelected_spec hcap hrep ho.insOk ho.delOk T hr,
        isSelected_spec hcap hrel.rep ho.insOk ho.delOk T hr]
    · rcases n.eq_zero_or_pos with rfl | hn
      · rfl
      · obtain ⟨sv1, hrun1, hpos1⟩ :=
          getSelVectorToScan_spec hcap hrep ho.insOk ho.delOk T hn hle sv
        obtain ⟨sv2, hrun2, hpos2⟩ :=
          getSelVectorToScan_spec hcap hrel.rep ho.insOk ho.delOk T hn hle sv
        rw [hrun1, hrun2, Option.map_some, Option.map_some, hpos1, hpos2]

/-- Two rows are committed, and one of two transactions deletes the second row. -/
def committedRows : List VersionAction :=
  [.begin, .append (startTransactionID + 1) 0 2, .commit (startTransactionID + 1), .begin, .begin]

/-- When the other transaction deletes the row as well, the code throws. -/
theorem versionInfo_delete_conflict_committed :
    ∃ s, (committedRows ++ [VersionAction.delete (startTransactionID + 2) 1]).foldlM
        VersionStore.step (.init 2) = some s ∧
      ∃ message, (s.info.delete_ (startTransactionID + 3) 1).2 = .error message := by
  have hrows : ((committedRows ++ [VersionAction.delete (startTransactionID + 2) 1]).foldlM
      (RowHistory.step 0) (.init 0)).map
        (fun h => (h.mgr.isActive (startTransactionID + 3), h.deletable (startTransactionID + 3) 1))
      = some (true, true) := by decide +kernel
  have hsuccess : (committedRows.foldlM VersionStore.step (.init 2)).map
      (fun s => (s.info.delete_ (startTransactionID + 2) 1).2.toOption) = some (some true) := by
    decide +kernel
  obtain ⟨h, hrun, hh⟩ := Option.map_eq_some_iff.mp hrows
  obtain ⟨hact, hrow⟩ := Prod.mk.inj hh
  obtain ⟨s₀, s, hs0, hs, hdel⟩ := versionInfo_delete_conflict (show 0 < 2 by decide) hrun
  rw [hs0, Option.map_some, Option.some.injEq] at hsuccess
  have hok : (s₀.info.delete_ (startTransactionID + 2) 1).2 = .ok true := by
    cases hres : (s₀.info.delete_ (startTransactionID + 2) 1).2 <;> simp_all [Except.toOption]
  exact ⟨s, hs, (hdel _ 1 hact hrow).1 hok (by simp) rfl⟩

end Ladybug
