import Ladybug.Catalog.Sequence
import Ladybug.Lib.Fold
import Mathlib.Data.List.TakeWhile
import Mathlib.Tactic.Ring

/-!
# Correctness of sequences

* `sequence_rollback_iff`: when the rollback of a transaction sets a sequence back;
* `sequence_values_nodup`: no value is handed out twice, when a transaction is rolled back only
  while no other transaction has taken values after it;
* `sequence_toCypher_iff`: when an exported sequence goes on as the original.
-/

namespace Ladybug

open List SequenceInfo SequenceSystem
open SequenceAction (nextKVal rollback)
open SequenceSystem (step)
open SequenceCall (committed isRunning)

variable {info : SequenceInfo} {data data' : SequenceData} {count id : ℕ} {values : List ℤ}
  {s s' : SequenceSystem} {e : String} {w v : ℤ}

/-! ### The loop -/

/-- Calls of `nextValNoLock` that return, with the values that they leave. -/
inductive Advance (info : SequenceInfo) : SequenceData → List ℤ → SequenceData → Prop
  | done (data : SequenceData) : Advance info data [] data
  | next {data data₁ data' : SequenceData} {values : List ℤ}
      (h : info.nextValNoLock data = .ok data₁) (rest : Advance info data₁ values data') :
      Advance info data (data₁.currVal :: values) data'

/-- The loop returns all values, or it ends at the first call that throws. -/
lemma nextKValLoop_spec (info : SequenceInfo) (count : ℕ) (data : SequenceData)
    (resultVector : List ℤ) :
    ∃ values data', Advance info data values data' ∧
      ((info.hasValues count data = true ∧ values.length = count ∧
          info.nextKValLoop count data resultVector = (data', .ok (resultVector ++ values))) ∨
        (info.hasValues count data = false ∧ values.length < count ∧
          ∃ e, info.nextValNoLock data' = .error e ∧
            info.nextKValLoop count data resultVector = (data', .error e))) := by
  induction count generalizing data resultVector with
  | zero =>
    refine ⟨[], data, .done data, .inl ⟨rfl, rfl, ?_⟩⟩
    rw [nextKValLoop, append_nil]
  | succ count ih =>
    rw [hasValues, nextKValLoop]
    cases hnext : info.nextValNoLock data with
    | error e => exact ⟨[], data, .done data, .inr ⟨rfl, Nat.succ_pos _, e, hnext, rfl⟩⟩
    | ok data₁ =>
      obtain ⟨values, data', hadvance, hres⟩ := ih data₁ (resultVector ++ [data₁.currVal])
      refine ⟨data₁.currVal :: values, data', .next hnext hadvance, ?_⟩
      rw [append_assoc, singleton_append] at hres
      refine hres.imp ?_ ?_
      · rintro ⟨hhas, hlen, hloop⟩
        exact ⟨hhas, by rw [length_cons, hlen], hloop⟩
      · rintro ⟨hhas, hlen, e, hthrow, hloop⟩
        exact ⟨hhas, Nat.succ_lt_succ hlen, e, hthrow, hloop⟩

lemma nextValNoLock_usageCount (h : info.nextValNoLock data = .ok data') :
    data'.usageCount = (data.usageCount + 1) % 2 ^ 64 := by
  simp only [nextValNoLock] at h
  split_ifs at h with hzero <;> obtain rfl := Except.ok.inj h
  · simp [hzero]
  all_goals rfl

lemma Advance.usageCount (h : Advance info data values data') (hlt : data.usageCount < 2 ^ 64) :
    data'.usageCount = (data.usageCount + values.length) % 2 ^ 64 := by
  induction h with
  | done data => rw [length_nil, Nat.add_zero, Nat.mod_eq_of_lt hlt]
  | @next data data₁ data' values hnext rest ih =>
    have hone := nextValNoLock_usageCount hnext
    rw [ih (hone ▸ Nat.mod_lt _ (by decide)), hone, Nat.mod_add_mod, length_cons, Nat.add_assoc,
      Nat.add_comm 1]

/-- Fewer than `2 ^ 64` calls, and at least one, change the usage count. -/
lemma Advance.ne (h : Advance info data values data') (hlt : data.usageCount < 2 ^ 64)
    (hne : values ≠ []) (hlen : values.length < 2 ^ 64) : data' ≠ data := by
  rintro rfl
  have hcount := h.usageCount hlt
  have hpos := length_pos_of_ne_nil hne
  omega

/-! ### The range of a sequence -/

lemma create_eq_ok {start : ℤ} : info.create start = .ok data ↔
    info.increment ≠ 0 ∧ info.minValue ≤ start ∧ start ≤ info.maxValue ∧ data = ⟨0, start⟩ ∧
      isInt64 info.increment ∧ isInt64 info.minValue ∧ isInt64 info.maxValue := by
  have hstart : isInt64 info.minValue → isInt64 info.maxValue → info.minValue ≤ start →
      start ≤ info.maxValue → isInt64 start := by
    simp only [isInt64, Bool.and_eq_true, decide_eq_true_eq]
    omega
  unfold create
  split_ifs <;> grind

/-- The value stays where a sequence may start. -/
lemma Advance.create (h : Advance info data values data')
    (hcreate : info.create data.currVal = .ok ⟨0, data.currVal⟩) :
    info.create data'.currVal = .ok ⟨0, data'.currVal⟩ := by
  induction h with
  | done => exact hcreate
  | next hnext _ ih =>
    refine ih ?_
    simp only [create_eq_ok, true_and] at hcreate ⊢
    simp only [nextValNoLock] at hnext
    split_ifs at hnext <;> obtain rfl := Except.ok.inj hnext <;> grind

/-- The value of the next call, while the sequence has one. -/
def SequenceInfo.nextValue (info : SequenceInfo) (data : SequenceData) : ℤ :=
  if data.usageCount = 0 then data.currVal else data.currVal + info.increment

/-- A sequence that does not cycle returns the next value when that is in its range. -/
lemma nextValNoLock_eq (hcycle : info.cycle = false)
    (hcreate : info.create data.currVal = .ok ⟨0, data.currVal⟩) :
    if info.minValue ≤ info.nextValue data ∧ info.nextValue data ≤ info.maxValue then
      ∃ usageCount, info.nextValNoLock data = .ok ⟨usageCount, info.nextValue data⟩
    else ∃ e, info.nextValNoLock data = .error e := by
  obtain ⟨hinc, hmin, hmax, -, -, hmin', hmax'⟩ := create_eq_ok.mp hcreate
  simp only [isInt64, Bool.and_eq_true, decide_eq_true_eq] at hmin' hmax'
  simp only [nextValNoLock, nextValue, hcycle]
  split_ifs <;> grind

/-- **Values left.**  A sequence that does not cycle has the values up to the end of its range. -/
theorem hasValues_iff (hcycle : info.cycle = false)
    (hcreate : info.create data.currVal = .ok ⟨0, data.currVal⟩)
    (hwrap : data.usageCount + count < 2 ^ 64) :
    info.hasValues (count + 1) data = true ↔
      info.minValue ≤ info.nextValue data + count * info.increment ∧
        info.nextValue data + count * info.increment ≤ info.maxValue := by
  induction count generalizing data with
  | zero =>
    have hnext := nextValNoLock_eq hcycle hcreate
    split_ifs at hnext with hrange <;> obtain ⟨x, hnext⟩ := hnext <;>
      simpa [hasValues, hnext] using hrange
  | succ n ih =>
    have hnext := nextValNoLock_eq hcycle hcreate
    rw [hasValues]
    split_ifs at hnext with hrange
    -- the next value is in range, and the rest follows it
    · obtain ⟨u, hnext⟩ := hnext
      have husage : u = (data.usageCount + 1) % 2 ^ 64 := nextValNoLock_usageCount hnext
      have hvalue : info.nextValue ⟨u, info.nextValue data⟩ =
          info.nextValue data + info.increment := if_neg (by simp only; omega)
      rw [hnext]
      simp only
      rw [ih (Advance.create (.next hnext (.done _)) hcreate) (by simp only; omega), hvalue]
      rw [show info.nextValue data + info.increment + n * info.increment =
        info.nextValue data + ((n + 1 : ℕ) : ℤ) * info.increment by push_cast; ring]
    · -- the values behind one that is out of range are out of range as well
      obtain ⟨e, hnext⟩ := hnext
      obtain ⟨hinc, hmin, hmax, -⟩ := create_eq_ok.mp hcreate
      rw [hnext]
      simp only [Bool.false_eq_true, false_iff]
      unfold nextValue at hrange ⊢
      rcases Int.lt_or_gt_of_ne hinc with hneg | hpos
      · have := Int.mul_nonpos_of_nonneg_of_nonpos (Int.natCast_nonneg (n + 1)) hneg.le
        grind
      · have := Int.mul_nonneg (Int.natCast_nonneg (n + 1)) hpos.le
        grind
/-! ### Rollback -/

namespace SequenceSystem

/-- The records are undone from the last to the first, so the first one decides. -/
lemma foldl_rollbackVal (records : List SequenceData) (data : SequenceData) :
    records.reverse.foldl (fun data r => data.rollbackVal r.usageCount r.currVal) data =
      records.head?.getD data := by
  cases records with
  | nil => rfl
  | cons r records =>
    rw [reverse_cons, foldl_append]
    rfl

/-- A call that throws leaves the calls as they are, one that returns adds itself. -/
lemma step_nextKVal (info : SequenceInfo) (s : SequenceSystem) (id : ℕ) (hcount : 0 < count) :
    ∃ values data, Advance info s.data values data ∧
      ((info.hasValues count s.data = true ∧ values.length = count ∧
          s.step info (.nextKVal id count) =
            some ⟨data, s.calls ++ [⟨id, s.data, values, false⟩]⟩) ∨
        (info.hasValues count s.data = false ∧ values.length < count ∧
          (∃ e, info.nextValNoLock data = .error e) ∧
          s.step info (.nextKVal id count) = some { s with data := data })) := by
  obtain ⟨values, data, hadvance, hres⟩ := nextKValLoop_spec info count s.data []
  refine ⟨values, data, hadvance, hres.imp ?_ ?_⟩
  · rintro ⟨hhas, hlen, hloop⟩
    exact ⟨hhas, hlen, by rw [step, if_pos hcount, hloop]; rfl⟩
  · rintro ⟨hhas, hlen, e, hthrow, hloop⟩
    exact ⟨hhas, hlen, ⟨e, hthrow⟩, by rw [step, if_pos hcount, hloop]⟩

lemma run_head {r : SequenceData} (hfirst : (s.undoBuffer id).head? = some r) (counts : List ℕ)
    (hcounts : ∀ c ∈ counts, 0 < c) :
    ∃ s', (counts.map (nextKVal id)).foldlM (step info) s = some s' ∧
      (s'.undoBuffer id).head? = some r := by
  induction counts generalizing s with
  | nil => exact ⟨s, rfl, hfirst⟩
  | cons c counts ih =>
    obtain ⟨values, data, -, hstep⟩ := step_nextKVal info s id (hcounts c mem_cons_self)
    obtain ⟨s1, hs1, hfirst1⟩ : ∃ s1, s.step info (.nextKVal id c) = some s1 ∧
        (s1.undoBuffer id).head? = some r := by
      rcases hstep with ⟨-, -, hok⟩ | ⟨-, -, -, herror⟩
      · refine ⟨_, hok, ?_⟩
        rw [undoBuffer, filter_append, map_append, head?_append]
        exact (congrArg (Option.or · _) hfirst).trans Option.some_or
      · exact ⟨_, herror, hfirst⟩
    obtain ⟨s', hs', hfirst'⟩ := ih hfirst1 fun c hc => hcounts c (mem_cons_of_mem _ hc)
    exact ⟨s', Fold.foldlM_cons_some.mpr ⟨s1, hs1, hs'⟩, hfirst'⟩

lemma run_exhausted (hthrow : info.nextValNoLock s.data = .error e)
    (counts : List ℕ) (hcounts : ∀ c ∈ counts, 0 < c) :
    (counts.map (nextKVal id)).foldlM (step info) s = some s := by
  induction counts with
  | nil => rfl
  | cons c counts ih =>
    obtain ⟨n, rfl⟩ := Nat.exists_eq_succ_of_ne_zero (hcounts c mem_cons_self).ne'
    have hstep : step info s (.nextKVal id (n + 1)) = some s := by
      simp [step, nextKValLoop, hthrow]
    exact Fold.foldlM_cons_some.mpr ⟨s, hstep, ih fun c hc => hcounts c (mem_cons_of_mem _ hc)⟩

end SequenceSystem

/-- The first of the calls takes at least one value unless the sequence has none left. -/
lemma Advance.eq_nil_iff (h : Advance info data values data')
    (hthrow : info.nextValNoLock data' = .error e) :
    values = [] ↔ info.hasValues 1 data = false := by
  cases h with
  | done data => simp [hasValues, hthrow]
  | next hnext rest => simp [hasValues, hnext]

/-- **When a rollback sets a sequence back.**  A transaction calls `nextKVal` any number of times
with any counts, and is rolled back.  The data are those from before the transaction if and only if
its first call returns, or the sequence had no value left: a first call that throws after some
values has advanced the sequence without a record, and all calls after it throw as well. -/
theorem sequence_rollback_iff (info : SequenceInfo) (s : SequenceSystem) (id : ℕ)
    (hnone : s.undoBuffer id = []) (husage : s.data.usageCount < 2 ^ 64) (counts : List ℕ)
    (hcounts : ∀ c ∈ counts, 0 < c ∧ c < 2 ^ 64) :
    ∃ s', (counts.map (nextKVal id) ++ [rollback id]).foldlM
        (step info) s = some s' ∧
      (s'.data = s.data ↔ ∀ c ∈ counts.head?,
        info.hasValues c s.data = true ∨ info.hasValues 1 s.data = false) := by
  -- it is enough to know the first record of the transaction when it is rolled back
  suffices hrun : ∃ s1, (counts.map (nextKVal id)).foldlM
      (step info) s = some s1 ∧
        ((s1.undoBuffer id).head?.getD s1.data = s.data ↔ ∀ c ∈ counts.head?,
          info.hasValues c s.data = true ∨ info.hasValues 1 s.data = false) by
    obtain ⟨s1, hs1, hiff⟩ := hrun
    refine ⟨_, Fold.foldlM_append_some.mpr ⟨s1, hs1, rfl⟩, ?_⟩
    rw [foldl_rollbackVal]
    exact hiff
  cases counts with
  | nil => exact ⟨s, rfl, by simp [hnone]⟩
  | cons c counts =>
    obtain ⟨hpos, hlt⟩ := hcounts c mem_cons_self
    have hrest : ∀ c ∈ counts, 0 < c := fun c hc => (hcounts c (mem_cons_of_mem _ hc)).1
    simp only [head?_cons, Option.mem_some_iff, forall_eq']
    obtain ⟨values, data, hadvance, ⟨hhas, -, hstep⟩ | ⟨hhas, hlen, ⟨e, hthrow⟩, hstep⟩⟩ :=
      step_nextKVal info s id hpos
    · have hfirst : ((⟨data, s.calls ++ [⟨id, s.data, values, false⟩]⟩ :
          SequenceSystem).undoBuffer id).head? = some s.data := by
        rw [undoBuffer, filter_append, map_append]
        rw [undoBuffer] at hnone
        simp [hnone, isRunning]
      obtain ⟨s1, hs1, hfirst1⟩ := run_head hfirst counts hrest
      refine ⟨s1, Fold.foldlM_cons_some.mpr ⟨_, hstep, hs1⟩, ?_⟩
      simp [hfirst1, hhas]
    · refine ⟨{ s with data := data }, Fold.foldlM_cons_some.mpr ⟨_, hstep,
        run_exhausted hthrow counts hrest⟩, ?_⟩
      have hbuffer : ({ s with data := data } : SequenceSystem).undoBuffer id = [] := hnone
      rw [hbuffer, hhas, ← hadvance.eq_nil_iff hthrow]
      simp only [head?_nil, Option.getD_none, Bool.false_eq_true, false_or]
      refine ⟨fun heq => ?_, fun hnil => ?_⟩
      · by_contra hne
        exact hadvance.ne husage hne (by omega) heq
      · subst hnil
        cases hadvance
        rfl

/-- A sequence with the values 1, 2 and 3. -/
def threeValues : SequenceInfo := ⟨"s", 1, 1, 3, false⟩

/-- The first call returns, so it does not matter that the second one throws. -/
theorem sequence_rollback_iff_two :
    ∃ s', [nextKVal 7 2, .nextKVal 7 4, .rollback 7].foldlM
        (step threeValues) (.init 1) = some s' ∧ s'.data = ⟨0, 1⟩ := by
  obtain ⟨s', hs', hiff⟩ :=
    sequence_rollback_iff threeValues (.init 1) 7 rfl (by decide) [2, 4] (by decide)
  refine ⟨s', hs', hiff.mpr fun c hc => .inl ?_⟩
  obtain rfl := Option.mem_some_iff.mp hc
  exact (hasValues_iff rfl rfl (by decide)).mpr (by decide)

/-- The first call throws after three values, and the rollback leaves them used. -/
theorem sequence_rollback_throws :
    ([nextKVal 7 4, .rollback 7].foldlM (step threeValues)
      (.init 1)).map SequenceSystem.data = some ⟨3, 3⟩ := by
  decide

/-! ### Values -/

namespace SequenceInfo

/-- `v` comes before `w` in the direction of the sequence. -/
def Before (info : SequenceInfo) (v w : ℤ) : Prop := if 0 < info.increment then v < w else w < v

lemma Before.trans {u : ℤ} (h : info.Before u v) (h' : info.Before v w) : info.Before u w := by
  unfold Before at *
  split_ifs at * <;> omega

lemma Before.ne (h : info.Before v w) : v ≠ w := by
  rintro rfl
  unfold Before at h
  split_ifs at h <;> omega

/-- A sequence that does not cycle hands out the next value and goes on. -/
lemma nextValNoLock_spec (hcycle : info.cycle = false) (hinc : info.increment ≠ 0)
    (hwrap : data.usageCount + 1 < 2 ^ 64) (h : info.nextValNoLock data = .ok data') :
    data'.currVal = info.nextValue data ∧
      info.Before (info.nextValue data) (info.nextValue data') := by
  have husage := nextValNoLock_usageCount h
  have hvalue : data'.currVal = info.nextValue data := by
    simp only [nextValNoLock, hcycle, Bool.false_eq_true, if_false] at h
    unfold nextValue
    split_ifs at h ⊢ <;> obtain rfl := Except.ok.inj h <;> rfl
  refine ⟨hvalue, ?_⟩
  have hnext : info.nextValue data' = info.nextValue data + info.increment := by
    rw [nextValue, if_neg (by omega), hvalue]
  rw [hnext, Before]
  split_ifs <;> omega

end SequenceInfo

/-- Values that are handed out one after the other come one after the other, behind what came before
the next value. -/
lemma Advance.before (hcycle : info.cycle = false) (hinc : info.increment ≠ 0)
    (h : Advance info data values data') (hwrap : data.usageCount + values.length < 2 ^ 64) :
    values.Pairwise info.Before ∧ (∀ w ∈ values, info.Before w (info.nextValue data')) ∧
      ∀ v, info.Before v (info.nextValue data) →
        info.Before v (info.nextValue data') ∧ ∀ w ∈ values, info.Before v w := by
  induction h with
  | done data => exact ⟨.nil, nofun, fun v hv => ⟨hv, nofun⟩⟩
  | @next data data₁ data' values hnext rest ih =>
    rw [length_cons] at hwrap
    obtain ⟨hvalue, hstep⟩ := nextValNoLock_spec hcycle hinc (by omega) hnext
    obtain ⟨hpair, hlast, hfirst⟩ := ih (by
      rw [nextValNoLock_usageCount hnext, Nat.mod_eq_of_lt (by omega)]
      omega)
    rw [hvalue]
    obtain ⟨hnow, hlater⟩ := hfirst _ hstep
    refine ⟨pairwise_cons.mpr ⟨hlater, hpair⟩, forall_mem_cons.mpr ⟨hnow, hlast⟩, fun v hv => ?_⟩
    obtain ⟨hend, hall⟩ := hfirst v (hv.trans hstep)
    exact ⟨hend, forall_mem_cons.mpr ⟨hv, hall⟩⟩

namespace SequenceSystem

/-- The steps in which no value comes back: the usage count does not wrap around, and a transaction
is rolled back only when all calls since its first one are its own. -/
def allowed (s : SequenceSystem) : SequenceAction → Prop
  | .nextKVal _ count => s.data.usageCount + count < 2 ^ 64
  | .commit _ => True
  | .rollback id => ∀ c ∈ s.calls.dropWhile (!·.isRunning id), c.isRunning id = true

instance (s : SequenceSystem) (a : SequenceAction) : Decidable (s.allowed a) :=
  match a with
  | .nextKVal _ _ => Nat.decLt _ _
  | .commit _ => .isTrue trivial
  | .rollback _ => List.decidableBAll _ _

/-- The values come in the order of the calls, before what the sequence hands out next; and so they
do for what a rollback may bring back. -/
structure Ordered (info : SequenceInfo) (s : SequenceSystem) : Prop where
  values : ∀ c ∈ s.calls, c.values.Pairwise info.Before
  calls : s.calls.Pairwise fun c c' => ∀ v ∈ c.values,
    info.Before v (info.nextValue c'.rollbackData) ∧ ∀ w ∈ c'.values, info.Before v w
  data : ∀ c ∈ s.calls, ∀ v ∈ c.values, info.Before v (info.nextValue s.data)

/-- What `Ordered` says holds of some of the calls, if they all come before the next value. -/
lemma Ordered.sublist (h : s.Ordered info) (hsub : s'.calls.Sublist s.calls)
    (hdata : ∀ c ∈ s'.calls, ∀ v ∈ c.values, info.Before v (info.nextValue s'.data)) :
    s'.Ordered info :=
  ⟨fun c hc => h.values c (hsub.subset hc), h.calls.sublist hsub, hdata⟩

lemma Ordered.nextKVal (hcycle : info.cycle = false) (hinc : info.increment ≠ 0)
    (h : s.Ordered info) (hwrap : s.data.usageCount + count < 2 ^ 64)
    (hstep : s.step info (.nextKVal id count) = some s') : s'.Ordered info := by
  have hcount : 0 < count := by
    by_contra hzero
    rw [step, if_neg hzero] at hstep
    exact absurd hstep nofun
  obtain ⟨values, data, hadvance, hres⟩ := step_nextKVal info s id hcount
  obtain ⟨hpair, hlast, hfirst⟩ := hadvance.before hcycle hinc (by omega)
  have hold : ∀ c ∈ s.calls, ∀ v ∈ c.values, info.Before v (info.nextValue data) :=
    fun c hc v hv => (hfirst v (h.data c hc v hv)).1
  rcases hres with ⟨-, -, hok⟩ | ⟨-, -, -, herror⟩
  · obtain rfl := Option.some.inj (hok.symm.trans hstep)
    refine ⟨fun c hc => ?_, pairwise_append.mpr ⟨h.calls, pairwise_singleton _ _, ?_⟩,
      fun c hc => ?_⟩
    · rcases mem_append.mp hc with hc | hc
      · exact h.values c hc
      · rw [mem_singleton.mp hc]
        exact hpair
    · intro c hc c' hc' v hv
      rw [mem_singleton.mp hc']
      exact ⟨h.data c hc v hv, (hfirst v (h.data c hc v hv)).2⟩
    · rcases mem_append.mp hc with hc | hc
      · exact hold c hc
      · rw [mem_singleton.mp hc]
        exact hlast
  · obtain rfl := Option.some.inj (herror.symm.trans hstep)
    exact h.sublist (Sublist.refl _) hold

lemma Ordered.commit (h : s.Ordered info) (hstep : s.step info (.commit id) = some s') :
    s'.Ordered info := by
  obtain rfl := Option.some.inj hstep
  -- a commit changes neither values nor records
  have hvalues : ∀ c : SequenceCall,
      (if c.id = id then { c with committed := true } else c).values = c.values := by
    intro c
    split_ifs <;> rfl
  have hrecord : ∀ c : SequenceCall,
      (if c.id = id then { c with committed := true } else c).rollbackData = c.rollbackData := by
    intro c
    split_ifs <;> rfl
  refine ⟨forall_mem_map.mpr fun c hc => ?_, pairwise_map.mpr (h.calls.imp fun hcc => ?_),
    forall_mem_map.mpr fun c hc => ?_⟩
  · rw [hvalues]
    exact h.values c hc
  · rw [hvalues, hvalues, hrecord]
    exact hcc
  · rw [hvalues]
    exact h.data c hc

lemma Ordered.rollback (h : s.Ordered info) (hallowed : s.allowed (.rollback id))
    (hstep : s.step info (.rollback id) = some s') : s'.Ordered info := by
  obtain rfl := Option.some.inj hstep
  refine h.sublist filter_sublist fun c hc v hv => ?_
  obtain ⟨hc, hother⟩ := mem_filter.mp hc
  rw [foldl_rollbackVal, undoBuffer]
  cases hown : s.calls.filter (isRunning id) with
  | nil => exact h.data c hc v hv
  | cons first rest =>
    obtain ⟨hfirst, hrunning⟩ : first ∈ s.calls ∧ first.isRunning id = true :=
      mem_filter.mp (hown ▸ mem_cons_self)
    have hcalls := h.calls
    rw [← takeWhile_append_dropWhile (p := (!·.isRunning id)) (l := s.calls)] at hc hfirst hcalls
    -- the calls since the first one of the transaction are its own, so `c` comes before that
    have hc' : c ∈ s.calls.takeWhile (!·.isRunning id) :=
      (mem_append.mp hc).resolve_right fun hmem => by simp [hallowed c hmem] at hother
    have hfirst' : first ∈ s.calls.dropWhile (!·.isRunning id) :=
      (mem_append.mp hfirst).resolve_left fun hmem => by
        have := mem_takeWhile_imp hmem
        simp [hrunning] at this
    exact ((pairwise_append.mp hcalls).2.2 c hc' first hfirst' v hv).1

lemma Ordered.step (hcycle : info.cycle = false) (hinc : info.increment ≠ 0)
    (h : s.Ordered info) {a : SequenceAction} (hallowed : s.allowed a)
    (hstep : s.step info a = some s') : s'.Ordered info := by
  cases a with
  | nextKVal id count => exact h.nextKVal hcycle hinc hallowed hstep
  | commit id => exact h.commit hstep
  | rollback id => exact h.rollback hallowed hstep

end SequenceSystem

/-- **No value twice.**  A sequence that does not cycle is used by any number of transactions, in
any order of calls, commits and rollbacks.  No value is handed out twice to transactions that
commit, when a transaction is rolled back only while all calls since its first one are its own, and
the usage count does not wrap around. -/
theorem sequence_values_nodup (hcycle : info.cycle = false) (hinc : info.increment ≠ 0)
    {startWith : ℤ} {actions : List SequenceAction}
    (hallowed : Fold.Guarded (step info) SequenceSystem.allowed (.init startWith)
      actions)
    (hrun : actions.foldlM (step info) (.init startWith) = some s) :
    ((s.calls.filter committed).flatMap SequenceCall.values).Nodup := by
  have hinit : (SequenceSystem.init startWith).Ordered info := ⟨nofun, .nil, nofun⟩
  have h : s.Ordered info := Fold.foldlM_guarded_invariant
    (fun _ _ _ hs ha hstep => hs.step hcycle hinc ha hstep) hinit hallowed hrun
  refine pairwise_flatMap.mpr ⟨fun c hc => ?_, (h.calls.filter _).imp fun hcc v hv w hw => ?_⟩
  · exact (h.values c (mem_of_mem_filter hc)).imp SequenceInfo.Before.ne
  · exact ((hcc v hv).2 w hw).ne

/-- One transaction is rolled back, and what it had taken goes to another one. -/
theorem sequence_values_nodup_rollback :
    ∃ s, [nextKVal 7 2, .rollback 7, .nextKVal 8 2, .commit 8].foldlM
        (step threeValues) (.init 1) = some s ∧
      ((s.calls.filter committed).flatMap SequenceCall.values).Nodup := by
  have hallowed : Fold.Guarded (step threeValues) allowed (.init 1)
      [nextKVal 7 2, .rollback 7, .nextKVal 8 2, .commit 8] := by decide
  exact ⟨_, rfl, sequence_values_nodup (show threeValues.cycle = false from rfl)
    (show threeValues.increment ≠ 0 by decide) hallowed rfl⟩

/-- A transaction takes a value and so does a second one, which commits; when the first one is
rolled back, a third one gets both values. -/
theorem sequence_values_twice :
    ([nextKVal 7 1, .nextKVal 8 1, .commit 8, .rollback 7, .nextKVal 9 2,
      .commit 9].foldlM (step threeValues) (.init 1)).map (fun s =>
        (s.calls.filter committed).flatMap SequenceCall.values) =
      some [2, 1, 2] := by
  decide

/-! ### Export -/

/-- The value after `v` is `v` again: the sequence cycles and has no other value. -/
def SequenceInfo.Repeats (info : SequenceInfo) (v : ℤ) : Prop :=
  info.cycle = true ∧
    (0 < info.increment ∧ info.maxValue < v + info.increment ∧ v = info.minValue ∨
      info.increment < 0 ∧ v + info.increment < info.minValue ∧ v = info.maxValue)

lemma nextValNoLock_repeats_iff (hcreate : info.create v = .ok data) :
    (∃ d, info.nextValNoLock ⟨1, v⟩ = .ok d ∧ d.currVal = v) ↔ info.Repeats v := by
  obtain ⟨hinc, hmin, hmax, -, -, hmin', hmax'⟩ := create_eq_ok.mp hcreate
  simp only [isInt64, Bool.and_eq_true, decide_eq_true_eq] at hmin' hmax'
  unfold Repeats
  simp only [nextValNoLock, Nat.one_ne_zero, if_false]
  split_ifs <;> simp_all <;> omega

/-- What the quotes are around is read back, when it has no quote and no backslash. -/
lemma transformStringLiteral_append {name : List Char}
    (h : ∀ c ∈ name, c ≠ '\'' ∧ c ≠ '\\') :
    SequenceStatements.transformStringLiteral (name ++ ['\'']) = some name := by
  induction name with
  | nil => rfl
  | cons c name ih =>
    obtain ⟨⟨hquote, hescape⟩, hrest⟩ := forall_mem_cons.mp h
    rw [cons_append, SequenceStatements.transformStringLiteral.eq_def]
    split <;> simp_all

/-- Behind the first call, the usage count decides about nothing. -/
lemma nextValNoLock_of_used (h : data.usageCount ≠ 0) : info.nextValNoLock data =
    (info.nextValNoLock ⟨1, data.currVal⟩).map
      fun d => ⟨(data.usageCount + 1) % 2 ^ 64, d.currVal⟩ := by
  simp only [nextValNoLock, if_neg h, Nat.one_ne_zero, if_false]
  split_ifs <;> rfl

lemma nextvals_of_used (n : ℕ) (hval : data.currVal = data'.currVal) (h : data.usageCount ≠ 0)
    (h' : data'.usageCount ≠ 0) (hwrap : data.usageCount + n ≤ 2 ^ 64)
    (hwrap' : data'.usageCount + n ≤ 2 ^ 64) : info.nextvals n data = info.nextvals n data' := by
  induction n generalizing data data' with
  | zero => rfl
  | succ n ih =>
    rw [nextvals, nextvals, nextValNoLock_of_used h, nextValNoLock_of_used h', ← hval]
    cases info.nextValNoLock ⟨1, data.currVal⟩ with
    | error e => exact congrArg _ (ih hval h h' (by omega) (by omega))
    | ok d =>
      cases n with
      | zero => rfl
      | succ n =>
        refine congrArg (Except.ok d.currVal :: ·) (ih rfl ?_ ?_ ?_ ?_) <;> dsimp only <;> omega

/-- The name is read back from the argument of `nextval`. -/
def SequenceInfo.Quotable (info : SequenceInfo) : Prop :=
  SequenceStatements.transformStringLiteral (info.name.toList ++ ['\'']) = some info.name.toList

instance (info : SequenceInfo) : Decidable info.Quotable :=
  inferInstanceAs (Decidable (_ = _))

lemma SequenceInfo.quotable_of_forall (h : ∀ c ∈ info.name.toList, c ≠ '\'' ∧ c ≠ '\\') :
    info.Quotable :=
  transformStringLiteral_append h

/-- The statements leave the sequence with its value used, or the name cannot be read. -/
lemma run_toCypher_eq_ok_iff (hcreate : info.create data.currVal = .ok ⟨0, data.currVal⟩)
    {result : SequenceInfo × SequenceData} : (info.toCypher data).run = .ok result ↔
      info.Quotable ∧ result = (info, ⟨1, data.currVal⟩) := by
  have hname : SequenceStatements.transformSymbolicName ("`" ++ info.name ++ "`") = info.name := by
    simp [SequenceStatements.transformSymbolicName]
  have htext : ("'" ++ info.name ++ "'").toList.tail = info.name.toList ++ ['\''] := by simp
  have hinfo : (⟨info.name, info.increment, info.minValue, info.maxValue, info.cycle⟩ :
      SequenceInfo) = info := rfl
  simp only [SequenceStatements.run, toCypher, hname, hinfo, hcreate, htext, Quotable]
  cases SequenceStatements.transformStringLiteral (info.name.toList ++ ['\'']) with
  | none => simp [bind, Except.bind]
  | some name =>
    have hiff : String.ofList name = info.name ↔ name = info.name.toList :=
      ⟨fun h => by rw [← h, String.toList_ofList], fun h => by rw [h, String.ofList_toList]⟩
    by_cases hread : name = info.name.toList
    · simp [hread, nextValNoLock, bind, Except.bind, pure, Except.pure, eq_comm]
    · simp [hread, mt hiff.mp hread, bind, Except.bind]

/-- **Export.**  The statements of `toCypher` make a sequence that goes on as the old one does,
while the usage count does not wrap around, if and only if the name can be read from the quotes of
`nextval` and the old one has been used, or its only value comes again. -/
theorem sequence_toCypher_iff {start : ℤ} (hcreate : info.create start = .ok data)
    (h : Advance info data values data') {n : ℕ} (hwrap : data'.usageCount + n < 2 ^ 64) :
    (∃ info' imported, (info.toCypher data').run = .ok (info', imported) ∧
      info'.nextvals n imported = info.nextvals n data') ↔
      info.Quotable ∧ (data'.usageCount ≠ 0 ∨ n = 0 ∨ info.Repeats data'.currVal) := by
  have hdata := (create_eq_ok.mp hcreate).2.2.2.1
  have himport := h.create (by rw [hdata] at hcreate ⊢; exact hcreate)
  simp only [run_toCypher_eq_ok_iff himport, Prod.mk.injEq, and_assoc, exists_and_left,
    exists_eq_left, and_congr_right_iff]
  rintro -
  by_cases hused : data'.usageCount = 0
  · cases n with
    | zero => simp [nextvals]
    | succ n =>
      have hfirst : info.nextValNoLock data' = .ok ⟨1, data'.currVal⟩ := by
        rw [nextValNoLock, if_pos hused]
      simp only [nextvals, hfirst, hused, ne_eq, not_true, Nat.succ_ne_zero, false_or,
        ← nextValNoLock_repeats_iff himport]
      cases hnext : info.nextValNoLock ⟨1, data'.currVal⟩ with
      | error e => simp
      | ok d =>
        have hcount := nextValNoLock_usageCount hnext
        simp only [cons.injEq, Except.ok.injEq, exists_eq_left', and_iff_left_iff_imp]
        exact fun hval => nextvals_of_used n hval (by grind) Nat.one_ne_zero (by grind) (by grind)
  · exact iff_of_true (nextvals_of_used n rfl Nat.one_ne_zero hused (by grind) hwrap.le)
      (.inl hused)

/-- A sequence that has handed out two values. -/
theorem sequence_toCypher_used :
    ∃ info imported, (threeValues.toCypher ⟨2, 2⟩).run = .ok (info, imported) ∧
      info.nextvals 3 imported = threeValues.nextvals 3 ⟨2, 2⟩ := by
  have hquote : threeValues.Quotable := threeValues.quotable_of_forall (by simp [threeValues])
  have hfirst : threeValues.nextValNoLock ⟨0, 1⟩ = .ok ⟨1, 1⟩ := rfl
  have hsecond : threeValues.nextValNoLock ⟨1, 1⟩ = .ok ⟨2, 2⟩ := rfl
  exact (sequence_toCypher_iff (show threeValues.create 1 = .ok ⟨0, 1⟩ from rfl)
    (.next hfirst (.next hsecond (.done _))) (by decide)).mpr ⟨hquote, .inl (by decide)⟩

/-- A sequence that has not been used starts with 1, and the one that is made from its statements
with 2. -/
theorem sequence_toCypher_unused :
    (threeValues.create 1).toOption = some ⟨0, 1⟩ ∧
      threeValues.nextvals 1 ⟨0, 1⟩ = [.ok 1] ∧
      (threeValues.toCypher ⟨0, 1⟩).run.toOption.map (fun r => r.1.nextvals 1 r.2) =
        some [.ok 2] := by
  refine ⟨rfl, rfl, ?_⟩
  decide

end Ladybug
