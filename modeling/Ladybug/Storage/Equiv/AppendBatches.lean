import Ladybug.Storage.Equiv.WriterInterleaving

/-!
# Batches of one writer at a time

A batch appends rows and ends its transaction, so the batches are a run of a node group with
several writers in which no transaction is active between two batches.

* `runBatch_trimmed`: when a batch leaves no values behind the rows.
* `runBatches_rows`: scans and lookups return the rows of the committed batches.
-/

namespace Ladybug

open Mvcc VersionInfo SharedNodeGroup List Option

variable {cap m : ℕ} {V : Type}

namespace NodeGroup

/-- The rows of the committed batches, in append order. -/
def committedRows (bs : List (AppendBatch m V)) : List (Fin m → V) :=
  bs.flatMap fun b => if b.commitTS.isSome then b.rows else []

/-- The rows that a node group shows after the batches: those of the checkpoint and those of the
committed batches. -/
def shownRows (p : Option (PersistentGroup m V)) (bs : List (AppendBatch m V)) :
    List (Fin m → V) :=
  p.elim [] (·.rows) ++ committedRows bs

/-- With `n` rows in memory: a batch that is rolled back and starts in the middle of a chunked
group is the last one with rows. -/
def NoStaleValues (chunkCap : ℕ) : ℕ → List (AppendBatch m V) → Prop
  | _, [] => True
  | n, b :: bs =>
    if b.commitTS.isSome then NoStaleValues chunkCap (n + b.rows.length) bs
    else if b.rows = [] ∨ n % chunkCap = 0 then NoStaleValues chunkCap n bs
    else ∀ b' ∈ bs, b'.rows = []

instance decidableNoStaleValues (chunkCap : ℕ) :
    ∀ (n : ℕ) (bs : List (AppendBatch m V)), Decidable (NoStaleValues chunkCap n bs)
  | _, [] => .isTrue trivial
  | n, b :: bs =>
    haveI := decidableNoStaleValues chunkCap (n + b.rows.length) bs
    haveI := decidableNoStaleValues chunkCap n bs
    inferInstanceAs (Decidable (if b.commitTS.isSome then NoStaleValues chunkCap (n + b.rows.length)
        bs else if b.rows = [] ∨ n % chunkCap = 0 then NoStaleValues chunkCap n bs else ∀ b' ∈ bs,
        b'.rows = []))

/-! ### One batch -/

/-- The action that ends the transaction of a batch. -/
def endAction (b : AppendBatch m V) : WriterAction m V :=
  match b.commitTS with
  | some ts => .commit b.transactionID ts
  | none => .rollback b.transactionID

variable {chunkCap n start startRow : ℕ} {old rows : List (StampedRow m V)}
  {pre gs gs' : List (ChunkedNodeGroup cap m V)} {ng ng' : NodeGroup cap m V} {b : AppendBatch m V}
  {Q : ChunkedNodeGroup cap m V → Prop}
  {func : ChunkedNodeGroup cap m V → ℕ → ℕ → Option (ChunkedNodeGroup cap m V)}
  {rss : List (List (StampedRow m V))}

lemma run_batch (chunkCap : ℕ) (ng : NodeGroup cap m V) (b : AppendBatch m V) :
    run chunkCap ⟨ng, []⟩ [.append b.transactionID b.rows, endAction b]
      = (runBatch chunkCap ng b).map (⟨·, []⟩) := by
  unfold runBatch
  cases happend : ng.append chunkCap b.transactionID (fun c => b.rows.map (· c)) 0
      b.rows.length with
  | none => simp [run, step, happend]
  | some ng1 =>
    cases hb : b.commitTS with
    | some ts =>
      simp [run, step, happend, hb, endAction, undoBuffer, removeTransaction, commitRecord,
        map_eq_bind]
    | none =>
      simp [run, step, happend, hb, endAction, undoBuffer, removeTransaction, rollbackRecord,
        map_eq_bind]

lemma commitRows_append_own {id : ℕ} (ts : ℕ) (hne : ∀ row ∈ rows, row.1 ≠ .active id)
    (new : List (Fin m → V)) : commitRows id ts (rows ++ stamped (.active id) new)
      = rows ++ stamped (.committed ts) new := by
  have hown : commitRows id ts (stamped (.active id) new) = stamped (.committed ts) new := by
    simp [commitRows, stamped, Stamp.commit]
  rw [commitRows, map_append]
  exact congrArg₂ (· ++ ·) (commitRows_of_ne hne) hown

/-- The rows of a batch, once its transaction has ended. -/
def rowsOf (b : AppendBatch m V) : List (StampedRow m V) :=
  b.commitTS.elim [] fun ts => stamped (.committed ts) b.rows

/-- Once a batch is appended, its transaction owns the end of the rows. -/
lemma ownsEnd_append (h : SharedRep chunkCap start old pre rows ⟨ng, []⟩) {id : ℕ}
    {new : List (Fin m → V)} {s : SharedNodeGroup cap m V}
    (hstep : step chunkCap ⟨ng, []⟩ (.append id new) = some s)
    (hs : SharedRep chunkCap start old pre (rows ++ stamped (.active id) new) s) :
    s.OwnsEnd id := by
  obtain ⟨ng1, -, hs1⟩ := bind_eq_some_iff.mp hstep
  obtain rfl := some.inj hs1
  obtain ⟨mems, rss, hnode, hflat⟩ := h.node
  obtain ⟨mems1, rss1, hnode1, hflat1⟩ := hs.node
  have hnum : ng1.numRows = ng.numRows + new.length := by
    rw [hnode1.numRows, hnode.numRows, hflat, hflat1, length_append, length_stamped]
    omega
  intro first hfirst
  simp only [undoBuffer, nil_append, filter_cons, decide_true, if_true, filter_nil,
    head?_cons, mem_def, Option.some.injEq] at hfirst ⊢
  subst hfirst
  refine ⟨by simpa using hnum, fun r hr hne => ?_⟩
  rw [mem_singleton.mp hr] at hne
  exact absurd rfl hne

/-- **One batch**: the rows of a committed batch come behind the others. -/
theorem runBatch_rep (hcap : 0 < cap) (hchunk : 0 < chunkCap)
    (h : SharedRep chunkCap start old pre rows ⟨ng, []⟩) (hb : b.rows = [] ∨ ng.TrimmedChunks) :
    ∃ ng', runBatch chunkCap ng b = some ng' ∧
      SharedRep chunkCap start old pre (rows ++ rowsOf b) ⟨ng', []⟩ := by
  obtain ⟨s1, hstep1, h1⟩ := step_rep h hcap hchunk
    (a := .append b.transactionID b.rows) ⟨b.start_le, b.transactionID_lt⟩ hb
  have hne : ∀ row ∈ rows, row.1 ≠ .active b.transactionID := ne_active_of_undoBuffer_nil h rfl
  obtain ⟨s2, hstep2, h2⟩ : ∃ s2, step chunkCap s1 (endAction b) = some s2 ∧
      SharedRep chunkCap start old pre (rows ++ rowsOf b) s2 := by
    unfold endAction rowsOf
    cases hts : b.commitTS with
    | some ts =>
      rw [elim_some, ← commitRows_append_own ts hne]
      exact step_rep h1 hcap hchunk (a := .commit b.transactionID ts) (b.commitTS_ok ts hts) trivial
    | none =>
      rw [elim_none, append_nil]
      have hstep := step_rep h1 hcap hchunk (a := .rollback b.transactionID) trivial
        (ownsEnd_append h hstep1 h1)
      rwa [show rowsAfter (rowsAfter rows (.append b.transactionID b.rows))
        (.rollback b.transactionID) = rows from rollbackRows_append_own hne b.rows] at hstep
  have hrun : run chunkCap ⟨ng, []⟩ [.append b.transactionID b.rows, endAction b] = some s2 :=
    Fold.foldlM_cons_some.mpr ⟨s1, hstep1, Fold.foldlM_cons_some.mpr ⟨s2, hstep2, rfl⟩⟩
  rw [run_batch] at hrun
  obtain ⟨ng', hng', rfl⟩ := map_eq_some_iff.mp hrun
  exact ⟨ng', hng', h2⟩

/-! ### The values behind the rows -/

/-- A property of groups that every change keeps: the changes start at row `j` of a group and at
the first row of the groups behind it. -/
lemma applyFuncLoop_forall {j : ℕ}
    (hfunc : ∀ i, i = j ∨ i = 0 → ∀ g k g', Q g → func g i k = some g' → Q g')
    (hgs : ∀ g ∈ gs, Q g) (hrun : applyFuncLoop func gs j n = some gs') : ∀ g ∈ gs', Q g := by
  induction gs generalizing j n gs' with
  | nil =>
    obtain rfl := some.inj hrun
    exact hgs
  | cons g gs ih =>
    unfold applyFuncLoop at hrun
    split_ifs at hrun with hn
    · obtain rfl := some.inj hrun
      exact hgs
    · obtain ⟨g1, hg1, hrun⟩ := bind_eq_some_iff.mp hrun
      obtain ⟨gs1, hgs1, hrun⟩ := bind_eq_some_iff.mp hrun
      obtain rfl := some.inj hrun
      rw [forall_mem_cons] at hgs ⊢
      exact ⟨hfunc j (.inl rfl) _ _ _ hgs.1 hg1,
        ih (fun i hi => hfunc i (.inr (or_self_iff.mp hi))) hgs.2 hgs1⟩

lemma applyFuncToChunkedGroups_forall
    (hfunc : ∀ p ∈ ng.findChunkedGroupIdxFromRowIdx chunkCap startRow, ∀ i, i = p.2 ∨ i = 0 →
      ∀ g k g', Q g → func g i k = some g' → Q g')
    (hng : ∀ g ∈ ng.chunkedGroups, Q g)
    (hrun : ng.applyFuncToChunkedGroups chunkCap func startRow n = some ng') :
    ∀ g ∈ ng'.chunkedGroups, Q g := by
  obtain ⟨-, -, hrun⟩ := bind_eq_some_iff.mp hrun
  cases hfind : ng.findChunkedGroupIdxFromRowIdx chunkCap startRow with
  | none =>
    rw [hfind] at hrun
    obtain rfl := some.inj hrun
    exact hng
  | some p =>
    rw [hfind] at hrun
    obtain ⟨gs, hgs, hrun⟩ := bind_eq_some_iff.mp hrun
    obtain rfl := some.inj hrun
    rw [forall_mem_append]
    exact ⟨fun g hg => hng g (mem_of_mem_take hg), applyFuncLoop_forall (hfunc p hfind)
      (fun g hg => hng g (mem_of_mem_drop hg)) hgs⟩

lemma forall_of_groupsRep {P : ℕ → List (StampedRow m V) → ChunkedNodeGroup cap m V → Prop}
    (h : GroupsRep P n gs rss) (hP : ∀ start rows g, P start rows g → Q g) : ∀ g ∈ gs, Q g := by
  induction h with
  | nil => simp
  | cons head _ ih => exact forall_mem_cons.mpr ⟨hP _ _ _ head, ih⟩

lemma trimmed_of_memRep {mems : List (ChunkedNodeGroup cap m V)}
    (h : NodeRep (MemRep chunkCap) chunkCap start old pre mems rss ng) : ng.TrimmedChunks := by
  intro g hg
  rw [h.groups] at hg
  rcases mem_append.mp hg with hg | hg
  · -- the group of the checkpoint is on disk
    cases h.persistent with
    | none => exact absurd hg not_mem_nil
    | some rep onDisk ne =>
      rw [mem_singleton.mp hg, onDisk]
      exact nofun
  · exact forall_of_groupsRep h.mems.reps (fun _ _ g hm _ c =>
      (hm.length_chunks c).trans hm.numRows_eq.symm) g hg

/-- A batch that is committed, has no rows or starts at the start of a group leaves no values behind
the rows. -/
lemma runBatch_trimmed (hcap : 0 < cap) (hchunk : 0 < chunkCap)
    (h : SharedRep chunkCap start old pre rows ⟨ng, []⟩) (htrim : ng.TrimmedChunks)
    (hb : b.commitTS.isSome ∨ b.rows = [] ∨ rows.length % chunkCap = 0)
    (hrun : runBatch chunkCap ng b = some ng') : ng'.TrimmedChunks := by
  obtain ⟨mems0, rss0, hnode, rfl⟩ := h.node
  have hreps := memsRep_of_trimmed hnode.mems.reps fun g hg =>
    htrim g (by rw [hnode.groups]; exact mem_append_right _ hg)
  obtain ⟨mems, rss, ng1, happend, h1, hflat, -⟩ := NodeGroup.append_spec hcap hchunk
    ⟨hnode.groups, hnode.persistent, hnode.mems.congr hreps rfl, hnode.numRows, hnode.nonempty⟩
    ⟨b.start_le, b.transactionID_lt⟩ b.rows
  have htrim1 := trimmed_of_memRep h1
  unfold runBatch at hrun
  simp only [happend, bind_eq_bind, bind_some] at hrun
  cases hts : b.commitTS with
  | some ts =>
    -- a commit changes the versions only
    rw [hts] at hrun
    refine applyFuncToChunkedGroups_forall (fun p _ i _ g k g' hg hg' => ?_) htrim1 hrun
    obtain ⟨vi, -, hg'⟩ := bind_eq_some_iff.mp hg'
    obtain ⟨vi', -, hg'⟩ := bind_eq_some_iff.mp hg'
    obtain rfl := some.inj hg'
    exact hg
  | none =>
    rw [hts] at hrun hb
    -- a rollback truncates the chunks
    obtain ⟨ng2, hng2, hng'⟩ := bind_eq_some_iff.mp hrun
    obtain rfl := some.inj hng'
    have hnum : ng.numRows = start + old.length + rss0.flatten.length := hnode.numRows
    have htrim2 : ng2.TrimmedChunks := by
      by_cases hnil : b.rows = []
      · rw [hnil, length_nil, applyFuncToChunkedGroups_zero ng1 chunkCap _ (by
          rw [hnum, h1.numRows, hflat, length_append]
          omega)] at hng2
        exact some.inj hng2 ▸ htrim1
      · -- the rows of the batch start with a group, so all of its groups are emptied
        have hmod : rss0.flatten.length % chunkCap = 0 := by simpa [hnil] using hb
        have hpos : 0 < rss.flatten.length := by
          rw [hflat, length_append, length_stamped]
          have := length_pos_of_ne_nil hnil
          omega
        obtain ⟨gs1, g, gs2, A, o, w, ws, hmems, hrows, -, -, hA, hw, -, hg1, hg, -⟩ :=
          exists_appended hnil h1 hflat (NodeRep.rows_ne h1 hpos)
        have hlt : o.length < (o ++ stamped (.active b.transactionID) w).length := by
          rw [length_append, length_stamped]
          have := length_pos_of_ne_nil hw
          omega
        have ho : o.length = 0 := by
          have hle := hg.length_le
          rw [hrows, length_append, length_flatten_of_full hA, Nat.mul_comm,
            Nat.mul_add_mod, Nat.mod_eq_of_lt (by omega)] at hmod
          exact hmod
        have hfind := find_spec h1.persistent rfl (hg1.mono fun _ _ _ hm => hm.placed) hA
          hg.placed hg.length_le hlt (by rw [h1.groups, hmems, append_assoc])
        rw [← length_append, ← hrows, ← hnum] at hfind
        refine applyFuncToChunkedGroups_forall (fun p hp i hi g k g' _ hg' => ?_) htrim1 hng2
        obtain rfl : ((pre ++ gs1).length, o.length) = p := some.inj (hfind.symm.trans hp)
        obtain rfl : i = 0 := hi.elim (fun hi => hi.trans ho) id
        obtain rfl := some.inj hg'
        intro _ c
        simp [ChunkedNodeGroup.truncate]
    exact fun g hg => htrim2 g (( rdropWhile_prefix _ _).subset hg)

/-! ### Runs -/

/-- **A run of batches** leaves the rows before it and the rows of its committed batches. -/
theorem runBatches_spec (hcap : 0 < cap) (hchunk : 0 < chunkCap) {bs : List (AppendBatch m V)}
    {T : Transaction} (hT : ∀ b ∈ bs, ∀ ts ∈ b.commitTS, ts ≤ T.startTS)
    (h : SharedRep chunkCap start old pre rows ⟨ng, []⟩) (hrows : ∀ row ∈ rows, RowOk T row)
    (hbs : ng.TrimmedChunks ∧ NoStaleValues chunkCap rows.length bs ∨ ∀ b ∈ bs, b.rows = []) :
    ∃ ng' rows', runBatches chunkCap ng bs = some ng' ∧
      SharedRep chunkCap start old pre rows' ⟨ng', []⟩ ∧ (∀ row ∈ rows', RowOk T row) ∧
      rows'.map Prod.snd = rows.map Prod.snd ++ committedRows bs := by
  induction bs generalizing rows ng with
  | nil => exact ⟨ng, rows, rfl, h, hrows, by simp [committedRows]⟩
  | cons b bs ih =>
    obtain ⟨ng1, hrun1, h1⟩ := runBatch_rep hcap hchunk h
      (hbs.symm.imp (fun hnil => hnil b (by simp)) And.left)
    have hrows1 : ∀ row ∈ rows ++ rowsOf b, RowOk T row := by
      rw [forall_mem_append]
      refine ⟨hrows, fun row hrow => ?_⟩
      unfold rowsOf at hrow
      cases hts : b.commitTS with
      | none => simp [hts] at hrow
      | some ts =>
        rw [hts] at hrow
        obtain ⟨v, -, rfl⟩ := mem_map.mp hrow
        exact ⟨ts, rfl, hT b (by simp) ts hts⟩
    have hbs1 : ng1.TrimmedChunks ∧ NoStaleValues chunkCap (rows ++ rowsOf b).length bs ∨
        ∀ b ∈ bs, b.rows = [] := by
      -- chunks stay trimmed until a rollback leaves stale values
      rcases hbs with ⟨htrim, hbs⟩ | hnil
      · unfold NoStaleValues at hbs
        have htrimmed := fun hb => runBatch_trimmed hcap hchunk h htrim hb hrun1
        cases hts : b.commitTS with
        | some ts =>
          rw [hts, if_pos (show (some ts).isSome = true from rfl)] at hbs
          exact .inl ⟨htrimmed (by simp [hts]), by simpa [rowsOf, hts] using hbs⟩
        | none =>
          rw [hts, if_neg (by simp)] at hbs
          split_ifs at hbs with hclean
          · exact .inl ⟨htrimmed (.inr hclean), by simpa [rowsOf, hts] using hbs⟩
          · exact .inr hbs
      · exact .inr fun b hb => hnil b (by simp [hb])
    obtain ⟨ng', rows', hrun', h', hrows', hsnd⟩ :=
      ih (fun b hb => hT b (by simp [hb])) h1 hrows1 hbs1
    refine ⟨ng', rows', Fold.foldlM_cons_some.mpr ⟨ng1, hrun1, hrun'⟩, h', hrows', ?_⟩
    rw [hsnd, map_append, append_assoc]
    cases hts : b.commitTS <;> simp [rowsOf, hts, committedRows, map_snd_stamped]

/-- **Scans and lookups return the rows of the committed batches.** -/
theorem runBatches_rows {chunkCap : ℕ} (hcap : 0 < cap) (hchunk : 0 < chunkCap)
    (p : Option (PersistentGroup m V)) (bs : List (AppendBatch m V))
    (hbs : NoStaleValues chunkCap 0 bs) (T : Transaction)
    (hT : ∀ b ∈ bs, ∀ ts ∈ b.commitTS, ts ≤ T.startTS) :
    ∃ ng : NodeGroup cap m V, runBatches chunkCap (init p) bs = some ng ∧
      ng.numRows = firstRow p + (shownRows p bs).length ∧
      (shownRows p bs ≠ [] → ∀ sv fuel, (shownRows p bs).length < fuel →
        ng.scanAll T sv fuel = some (outputRows (firstRow p) (shownRows p bs))) ∧
      ∀ i (hi : i < (shownRows p bs).length), ng.lookup chunkCap T (firstRow p + i)
        = some (some (firstRow p + i, fun c => some ((shownRows p bs).get ⟨i, hi⟩ c))) := by
  obtain ⟨pre, hinit⟩ := init_sharedRep (m := m) (V := V) chunkCap p
  obtain ⟨_, hnode0⟩ := init_rep (m := m) (V := V) chunkCap p
  obtain ⟨ng', rows', hrun, h', hrows', hsnd'⟩ := runBatches_spec hcap hchunk hT hinit
    (by simp) (.inl ⟨trimmed_of_memRep hnode0, hbs⟩)
  obtain ⟨mems', rss', hnode, rfl⟩ := h'.node
  have hgroup := hnode.mono fun _ _ _ hm => hm.groupRep
  set old := stamped (.committed 0) (p.elim [] (·.rows)) with hold
  have hsnd : (old ++ rss'.flatten).map Prod.snd = shownRows p bs := by
    rw [map_append, hsnd', hold, map_snd_stamped]
    rfl
  -- every row left is committed before the reader began
  have hall : ∀ row ∈ old ++ rss'.flatten, RowOk T row := by
    intro row hrow
    rcases mem_append.mp hrow with hrow | hrow
    · obtain ⟨v, -, rfl⟩ := mem_map.mp hrow
      exact ⟨0, rfl, Nat.zero_le _⟩
    · exact hrows' row hrow
  have hlen : (old ++ rss'.flatten).length = (shownRows p bs).length := by
    rw [← hsnd, length_map]
  refine ⟨ng', hrun, ?_, fun hne sv fuel hfuel => ?_, fun i hi => ?_⟩
  · rw [hnode.numRows, ← hlen, length_append, Nat.add_assoc]
  · have hne' : old ++ rss'.flatten ≠ [] := by
      intro hnil
      rw [hnil] at hsnd
      exact hne hsnd.symm
    rw [scanAll_spec hcap hgroup (RowOk.stampsOk hall) hne' (by rw [hlen]; exact hfuel) sv,
      visibleRows_of_rowOk hall, hsnd]
  · have hi' : i < (old ++ rss'.flatten).length := by rw [hlen]; exact hi
    obtain ⟨ts, hts, hle⟩ := hall _ (getElem_mem hi')
    have hvis : ((old ++ rss'.flatten)[i]).1.visibleTo T.id T.startTS = true := by
      rw [hts]
      simpa using hle
    rw [lookup_spec hcap hgroup (RowOk.stampsOk hall) hi', if_pos hvis]
    have hget := (getElem_of_eq hsnd.symm hi).trans (getElem_map ..)
    simp [hget]

/-- A committed row, a row that is rolled back behind it, and a committed row again. -/
def staleBatches : List (AppendBatch 1 ℕ) :=
  [⟨startTransactionID, [fun _ => 10], some 1, Nat.le_refl _, startTransactionID_lt,
    one_isCommitTS⟩,
   ⟨startTransactionID + 1, [fun _ => 20], none, by decide, startTransactionID_add_one_lt,
    by decide⟩,
   ⟨startTransactionID + 2, [fun _ => 30], some 2, by decide, startTransactionID_add_two_lt,
    by decide⟩]

/-- A run that spans groups: three committed rows in groups of two, a batch without rows, and a
rollback in the middle of a group that no row follows. -/
def spanningBatches : List (AppendBatch 1 ℕ) :=
  [⟨startTransactionID, [fun _ => 10, fun _ => 11, fun _ => 12], some 1, Nat.le_refl _,
    startTransactionID_lt, one_isCommitTS⟩,
   ⟨startTransactionID + 1, [], none, by decide, startTransactionID_add_one_lt, by decide⟩,
   ⟨startTransactionID + 2, [fun _ => 20, fun _ => 21], none, by decide,
    startTransactionID_add_two_lt, by decide⟩]

theorem runBatches_rows_spanning :
    NoStaleValues 2 0 spanningBatches ∧
    ∃ ng : NodeGroup 4 1 ℕ, runBatches 2 (init none) spanningBatches = some ng ∧
      ng.scanAll reader ⟨.static, 0, id⟩ 4
        = some (outputRows 0 [fun _ => 10, fun _ => 11, fun _ => 12]) := by
  have hbs : NoStaleValues 2 0 spanningBatches := by decide
  obtain ⟨ng, hrun, -, hscan, -⟩ := runBatches_rows (show 0 < 4 by decide) (by decide)
    none spanningBatches hbs reader (by decide)
  exact ⟨hbs, ng, hrun, hscan (by decide) _ 4 (by decide)⟩

/-- The value of the rolled back row stays in its chunk, and the next row shows it. -/
theorem runBatches_rows_stale :
    ((runBatches 2048 (init none : NodeGroup 2048 1 ℕ) staleBatches).bind
        fun ng => ng.lookup 2048 reader 1).map (·.map fun row => row.2 0) = some (some (some 20)) ∧
      (shownRows none staleBatches)[1]?.map (· 0) = some 30 := by
  decide +kernel

end NodeGroup

end Ladybug
