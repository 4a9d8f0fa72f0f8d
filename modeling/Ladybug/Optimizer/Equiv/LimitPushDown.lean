import Ladybug.Optimizer.LimitPushDown
import Ladybug.Lib.ExceptList

/-!
# When limit push-down preserves results

A plan is a pipeline over a source, the operator at which the optimizer stops (`returns_iff`). The
optimizer leaves the pipeline as it is and sets a number on the source (`visitOperator_spec`), the
sum of the nearest `SKIP` and the nearest `LIMIT` above it.

* `preserves_iff`: a plan is rewritten without harm on every database exactly when the number is at
  least the number of rows that the operators above the source ask for, or when the plan never
  returns a row, or fails.
* `not_preserves_filter`: with a filter in between, it does harm.
-/

namespace Ladybug.LimitPushDown

open RowPipeline (Env Op Runs Step demand entry exists_runs limited runs_eq_zero)

variable {R : Type}

/-! ### Plans as pipelines -/

/-- The operator at which the optimizer stops: its rows, and the number after which it may stop. -/
structure Source where
  rows : ℕ
  distinct : Bool
  limitNum : ℕ
  deriving Repr, DecidableEq

def Source.allRows [DecidableEq R] (source : Source) (db : Database R) : Multiset R :=
  if source.distinct then (db.rows source.rows).dedup else db.rows source.rows

namespace LogicalOperator

def source : LogicalOperator → Source
  | limit _ _ child => child.source
  | multiplicityReducer child | explain child | accumulate child => child.source
  | filter _ child | projection _ child => child.source
  | tableFunctionCall rows _ limitNum => ⟨rows, false, limitNum⟩
  | distinct rows limitNum skipNum => ⟨rows, true, mapDistinct limitNum skipNum⟩
  | hashJoin probe _ _ => probe.source
  | pathPropertyProbe child _ => child.source
  | recursiveExtend rows limitNum => ⟨rows, false, limitNum⟩
  | unionAll _ _ => ⟨0, false, INVALID_LIMIT⟩
  | other rows => ⟨rows, false, INVALID_LIMIT⟩

/-- The operators between the source and the root, from the source on. -/
def steps : LogicalOperator → Except String (List (Op Name))
  | limit skipNum limitNum child => do
    let ops ← child.steps
    let s ← mapNumber "skip" skipNum
    let l ← mapNumber "limit" limitNum
    return ops ++ [.limit (s.getD 0) l]
  | multiplicityReducer child | explain child | accumulate child => child.steps
  | filter predicate child => (· ++ [.filter (.predicate predicate)]) <$> child.steps
  | projection expressions child => (· ++ [.map (.projection expressions)]) <$> child.steps
  | hashJoin probe build oneToOne => (· ++ [if oneToOne then .map (.build build)
      else .expand (.build build)]) <$> probe.steps
  | pathPropertyProbe child properties => (· ++ [.map (.properties properties)]) <$> child.steps
  | _ => return []

def unionFree : LogicalOperator → Bool
  | limit _ _ child | multiplicityReducer child | explain child | accumulate child =>
      child.unionFree
  | filter _ child | projection _ child | pathPropertyProbe child _ => child.unionFree
  | hashJoin probe _ _ => probe.unionFree
  | unionAll _ _ => false
  | _ => true

end LogicalOperator

open LogicalOperator (source steps)

variable {number limitNum : ℕ} {op : Op Name} {r rows full m : Multiset R}
  {child plan : LogicalOperator} {visited : Except String LogicalOperator}
  {f : LogicalOperator → LogicalOperator} {ops : List (Op Name)} {env : Env Name R}

/-- The last operator runs on what the others return. -/
lemma runs_snoc : Runs env (ops ++ [op]) m r ↔ ∃ m', Runs env ops m m' ∧ Step env op m' r := by
  simp only [RowPipeline.runs_append, RowPipeline.runs_singleton]

lemma stops_iff (env : Env Name R) :
    Stops limitNum full r ↔ ∃ ops, (Except.ok [] : Except String _) = .ok ops ∧
      ∃ m, Stops limitNum full m ∧ Runs env ops m r := by
  constructor
  · exact fun h => ⟨[], rfl, r, h, rfl⟩
  · rintro ⟨ops, hops, m, hstops, hruns⟩
    obtain rfl := Except.ok.inj hops
    obtain rfl := hruns
    exact hstops

/-- A plan with one more operator on top. -/
lemma returns_snoc {child : Multiset R → Prop} {ops : Except String (List (Op Name))}
    {db : Database R}
    (hchild : ∀ m, child m ↔ ∃ os, ops = .ok os ∧ ∃ m0, Stops limitNum full m0 ∧
      Runs db.env os m0 m) :
    (∃ m, child m ∧ Step db.env op m r) ↔ ∃ os, (· ++ [op]) <$> ops = .ok os ∧
      ∃ m0, Stops limitNum full m0 ∧ Runs db.env os m0 r := by
  constructor
  · rintro ⟨m, hm, hstep⟩
    obtain ⟨os, rfl, m0, hstops, hruns⟩ := (hchild m).mp hm
    exact ⟨os ++ [op], rfl, m0, hstops, runs_snoc.mpr ⟨m, hruns, hstep⟩⟩
  · rintro ⟨os, hos, m0, hstops, hruns⟩
    cases ops with
    | error e => cases hos
    | ok os' =>
      obtain rfl := Except.ok.inj hos
      obtain ⟨m, hm, hstep⟩ := runs_snoc.mp hruns
      exact ⟨m, (hchild m).mpr ⟨os', rfl, m0, hstops, hm⟩, hstep⟩

/-- Without a limit the source returns all rows. -/
lemma stops_invalid : Stops INVALID_LIMIT rows r ↔ r = rows := by
  constructor
  · exact fun h => h.2
  · rintro rfl
    exact ⟨le_rfl, rfl⟩

/-- Returning all rows is always allowed. -/
lemma stops_self (limitNum : ℕ) (rows : Multiset R) : Stops limitNum rows rows := by
  refine ⟨le_rfl, ?_⟩
  split
  · rfl
  · exact min_le_right _ _

/-- A number that is set does no harm when the pipeline does not ask for more. -/
lemma runs_of_stops (hcovered : (number = INVALID_LIMIT || (demand ops).any (· ≤ number) ||
      (entry ops).isNone) = true) (hstops : Stops number rows m)
    (hruns : Runs env ops m r) : Runs env ops rows r := by
  rw [Bool.or_eq_true, Bool.or_eq_true, decide_eq_true_eq] at hcovered
  obtain (hinvalid | hdemand) | hentry := hcovered
  · rw [hinvalid] at hstops
    rwa [← stops_invalid.mp hstops]
  · obtain ⟨d, hd, hle⟩ : ∃ d, demand ops = some d ∧ d ≤ number := by
      cases h : demand ops with
      | none =>
        rw [h] at hdemand
        cases hdemand
      | some d =>
        rw [h] at hdemand
        exact ⟨d, rfl, of_decide_eq_true hdemand⟩
    apply RowPipeline.runs_of_le hstops.1 _ hruns
    obtain ⟨hsub, hcard⟩ := hstops
    rw [hd]
    split at hcard
    · rw [hcard]
      exact min_le_right _ _
    · exact (min_le_min_right _ hle).trans hcard
  · -- nothing is returned with or without the number
    rw [Option.isNone_iff_eq_none] at hentry
    obtain ⟨r', hruns'⟩ := exists_runs env ops rows
    rw [runs_eq_zero (by rw [hentry]; nofun) hruns]
    rwa [runs_eq_zero (by rw [hentry]; nofun) hruns'] at hruns'

variable [DecidableEq R]

/-- A plan without unions returns what its operators make of the source's rows. -/
lemma returns_iff (db : Database R) (hunion : plan.unionFree = true) (r : Multiset R) :
    Returns db plan r ↔ ∃ ops, plan.steps = .ok ops ∧
      ∃ m, Stops plan.source.limitNum (plan.source.allRows db) m ∧ Runs db.env ops m r := by
  induction plan generalizing r with
  -- the limit is the last of the steps
  | limit skipNum limitNum child ih =>
    constructor
    · rintro ⟨s, l, hs, hl, m, hm, hstep⟩
      obtain ⟨os, hos, m0, hstops, hruns⟩ := (ih hunion m).mp hm
      refine ⟨os ++ [.limit (s.getD 0) l], ?_, m0, hstops, runs_snoc.mpr ⟨m, hruns, hstep⟩⟩
      rw [steps, hos, hs, hl]
      rfl
    · rintro ⟨ops, hops, m0, hstops, hruns⟩
      rw [steps] at hops
      obtain ⟨os, hos, hops⟩ := ExceptList.bind_ok hops
      obtain ⟨s, hs, hops⟩ := ExceptList.bind_ok hops
      obtain ⟨l, hl, hops⟩ := ExceptList.bind_ok hops
      obtain rfl := Except.ok.inj hops
      obtain ⟨m, hm, hstep⟩ := runs_snoc.mp hruns
      exact ⟨s, l, hs, hl, m, (ih hunion m).mpr ⟨os, hos, m0, hstops, hm⟩, hstep⟩
  | multiplicityReducer child ih | explain child ih | accumulate child ih => exact ih hunion r
  | filter predicate child ih | projection expressions child ih => exact returns_snoc (ih hunion)
  | hashJoin probe build oneToOne ih | pathPropertyProbe child properties ih =>
    exact returns_snoc (ih hunion)
  | unionAll left right => cases hunion
  | tableFunctionCall rows supportsPushDown limitNum | distinct rows limitNum skipNum =>
    exact stops_iff db.env
  | recursiveExtend rows limitNum => exact stops_iff db.env
  -- a source without a limit returns all its rows
  | other rows =>
    constructor
    · intro h
      obtain rfl := h
      exact ⟨[], rfl, db.rows rows, ⟨le_rfl, rfl⟩, rfl⟩
    · rintro ⟨ops, hops, m, hstops, hruns⟩
      obtain rfl := Except.ok.inj hops
      obtain rfl := hruns
      exact hstops.2

/-! ### What the optimizer sets -/

/-- A literal `SKIP` or `LIMIT` takes the place of those above it. -/
def nearest (number : ℕ) : Option Expression → ℕ
  | some (.literal value) => value.toNat % 2 ^ 64
  | _ => number

/-- The number that is set on a table function or on a recursive extend. -/
def pushedSum (skipNumber limitNumber : ℕ) : ℕ :=
  if limitNumber = INVALID_LIMIT ∧ skipNumber = 0 then INVALID_LIMIT
  else (skipNumber + limitNumber) % 2 ^ 64

namespace LogicalOperator

/-- The number that is set below a hash join: only recursive extends get it. -/
def pushedBelow (number : ℕ) : LogicalOperator → ℕ
  | pathPropertyProbe (recursiveExtend _ _) _ => number
  | hashJoin (pathPropertyProbe (recursiveExtend _ _) _) _ _ => number
  | _ => INVALID_LIMIT

lemma pushedBelow_invalid (probe : LogicalOperator) :
    probe.pushedBelow INVALID_LIMIT = INVALID_LIMIT := by
  unfold pushedBelow
  split <;> rfl

/-- The number that is set on the source, when `skipNumber` and `limitNumber` are the nearest
numbers above the plan. -/
def pushed (skipNumber limitNumber : ℕ) : LogicalOperator → ℕ
  | limit skipNum limitNum child =>
    child.pushed (nearest skipNumber skipNum) (nearest limitNumber limitNum)
  | multiplicityReducer child | explain child | accumulate child =>
    child.pushed skipNumber limitNumber
  | filter _ child | projection _ child => child.pushed skipNumber limitNumber
  | tableFunctionCall _ true _ => pushedSum skipNumber limitNumber
  | distinct _ _ _ =>
    if limitNumber = INVALID_LIMIT ∧ skipNumber = 0 then INVALID_LIMIT
    else mapDistinct limitNumber skipNumber
  | hashJoin probe _ _ => probe.pushedBelow (pushedSum skipNumber limitNumber)
  | _ => INVALID_LIMIT

/-- A plan as it comes from the planner: no number has been set yet, and a `PATH_PROPERTY_PROBE`
stands over a `RECURSIVE_EXTEND`. -/
def planned : LogicalOperator → Bool
  | limit _ _ child | multiplicityReducer child | explain child | accumulate child => child.planned
  | filter _ child | projection _ child => child.planned
  | tableFunctionCall _ _ limitNum => limitNum = INVALID_LIMIT
  | distinct _ limitNum skipNum => limitNum = INVALID_LIMIT && skipNum = INVALID_LIMIT
  | hashJoin probe _ _ => probe.planned
  | pathPropertyProbe (recursiveExtend _ limitNum) _ => limitNum = INVALID_LIMIT
  | pathPropertyProbe _ _ => false
  | recursiveExtend _ limitNum => limitNum = INVALID_LIMIT
  | unionAll left right => left.planned && right.planned
  | other _ => true

/-- A fresh plan has no limit at its source. -/
lemma limitNum_source (h : plan.planned = true) : plan.source.limitNum = INVALID_LIMIT := by
  induction plan with
  | limit skipNum limitNum child ih | multiplicityReducer child ih | explain child ih => exact ih h
  | accumulate child ih | filter predicate child ih | projection expressions child ih => exact ih h
  | hashJoin probe build oneToOne ih => exact ih h
  | tableFunctionCall rows supportsPushDown limitNum | recursiveExtend rows limitNum =>
    exact of_decide_eq_true h
  | distinct rows limitNum skipNum =>
    rw [planned, Bool.and_eq_true, decide_eq_true_eq, decide_eq_true_eq] at h
    obtain ⟨rfl, rfl⟩ := h
    rfl
  | pathPropertyProbe child properties =>
    cases child with
    | recursiveExtend rows limitNum => exact of_decide_eq_true h
    | _ => cases h
  | unionAll left right | other rows => rfl

end LogicalOperator

/-- The rewrite reads the number, or the limit operator fails as well. -/
lemma readNumber_cases (number : ℕ) (skipOrLimit : String) (e : Option Expression) :
    readNumber number e = .ok (nearest number e) ∨
      ∃ msg msg', readNumber number e = .error msg ∧ mapNumber skipOrLimit e = .error msg' := by
  rcases e with _ | ⟨value⟩ | _ | ⟨name⟩
  · exact .inl rfl
  · by_cases hneg : value < 0
    · have heval : Expression.evaluateAsSkipLimit (.literal value) =
          .error "The number of rows to skip/limit must be a non-negative integer." := if_pos hneg
      have hmap : mapNumber skipOrLimit (some (.literal value)) =
          .error "The number of rows to skip/limit must be a non-negative integer." := by
        show some <$> Expression.evaluateAsSkipLimit (.literal value) = _
        rw [heval]
        rfl
      exact .inr ⟨_, _, heval, hmap⟩
    · exact .inl (if_neg hneg)
  · exact .inr ⟨_, _, rfl, rfl⟩
  · exact .inl rfl

/-- The optimizer keeps the pipeline of a plan and sets a number on its source, or it fails because
of a `SKIP` or a `LIMIT` for which the plan fails too. -/
def Visited (plan : LogicalOperator) (number : ℕ) (visited : Except String LogicalOperator) :
    Prop :=
  (∃ plan', visited = .ok plan' ∧ plan'.steps = plan.steps ∧
    plan'.source = { plan.source with limitNum := number } ∧ plan'.unionFree = plan.unionFree) ∨
  ∃ msg msg', visited = .error msg ∧ plan.steps = .error msg'

lemma visited_self (h : plan.source.limitNum = number) : Visited plan number (.ok plan) :=
  .inl ⟨plan, rfl, rfl, by rw [← h], rfl⟩

lemma Visited.map (h : Visited child number visited)
    (hsteps : ∀ c c', c'.steps = c.steps → (f c').steps = (f c).steps)
    (herror : ∀ c msg, c.steps = .error msg → ∃ msg', (f c).steps = .error msg')
    (hsource : ∀ c, (f c).source = c.source) (hunion : ∀ c, (f c).unionFree = c.unionFree) :
    Visited (f child) number (f <$> visited) := by
  obtain ⟨child', rfl, hs, hsrc, hu⟩ | ⟨msg, msg', rfl, hs⟩ := h
  · refine .inl ⟨f child', rfl, hsteps child child' hs, ?_, ?_⟩
    · rw [hsource, hsource, hsrc]
    · rw [hunion, hunion, hu]
  · obtain ⟨msg'', hmsg⟩ := herror child msg' hs
    exact .inr ⟨msg, msg'', rfl, hmsg⟩

/-- Visiting below one operator. -/
lemma Visited.map_snoc (h : Visited child number visited)
    (hsteps : ∀ c, (f c).steps = (· ++ [op]) <$> c.steps)
    (hsource : ∀ c, (f c).source = c.source) (hunion : ∀ c, (f c).unionFree = c.unionFree) :
    Visited (f child) number (f <$> visited) := by
  refine h.map (fun c c' hc => ?_) (fun c msg hc => ⟨msg, ?_⟩) hsource hunion
  · rw [hsteps, hsteps, hc]
  · rw [hsteps, hc]
    rfl

/-- The limit reaches an extend below. -/
lemma pushToExtend_visited (number : ℕ) (hplanned : child.planned = true)
    (hjoin : ∀ probe build oneToOne, child ≠ .hashJoin probe build oneToOne) :
    Visited child (child.pushedBelow number) (pushToExtend number child) := by
  have hlimit := LogicalOperator.limitNum_source hplanned
  cases child with
  | pathPropertyProbe child properties =>
    cases child with
    | recursiveExtend rows limitNum => exact .inl ⟨_, rfl, rfl, rfl, rfl⟩
    | _ => cases hplanned
  | hashJoin probe build oneToOne => exact absurd rfl (hjoin probe build oneToOne)
  | _ => exact visited_self hlimit

/-- The limit reaches the probe side. -/
lemma pushBelowHashJoin_visited (number : ℕ) {probe : LogicalOperator}
    (hplanned : probe.planned = true) :
    Visited probe (probe.pushedBelow number) (pushBelowHashJoin number probe) := by
  cases probe with
  | hashJoin probe build oneToOne =>
    cases probe with
    | hashJoin probe1 build1 oneToOne1 =>
      exact visited_self (LogicalOperator.limitNum_source hplanned)
    | pathPropertyProbe child properties =>
      cases child with
      | recursiveExtend rows limitNum => exact .inl ⟨_, rfl, rfl, rfl, rfl⟩
      | _ => cases hplanned
    | _ => exact visited_self (LogicalOperator.limitNum_source hplanned)
  | _ => exact pushToExtend_visited number hplanned nofun

/-- **The visit** changes nothing but the limit at the source. -/
lemma visitOperator_spec (hplanned : plan.planned = true)
    (hunion : plan.unionFree = true) (skipNumber limitNumber : ℕ) :
    Visited plan (plan.pushed skipNumber limitNumber)
      (visitOperator skipNumber limitNumber plan) := by
  have hlimit := LogicalOperator.limitNum_source hplanned
  induction plan generalizing skipNumber limitNumber with
  | limit skipNum limitNum child ih =>
    rw [visitOperator]
    -- a number that cannot be read fails in both plans
    obtain hs | ⟨msg, msg', hs, hmap⟩ := readNumber_cases skipNumber "skip" skipNum
    · rw [hs]
      obtain hl | ⟨msg, msg', hl, hmap⟩ := readNumber_cases limitNumber "limit" limitNum
      · rw [hl]
        apply (ih hplanned hunion _ _ hlimit).map
        · intro c c' hc
          rw [steps, steps, hc]
        · intro c msg hc
          exact ⟨msg, by rw [steps, hc]; rfl⟩
        · exact fun _ => rfl
        · exact fun _ => rfl
      · rw [hl]
        refine .inr ⟨msg, ?_⟩
        rw [steps, hmap]
        cases child.steps with
        | error e => exact ⟨e, rfl, rfl⟩
        | ok ops =>
          cases mapNumber "skip" skipNum with
          | error e => exact ⟨e, rfl, rfl⟩
          | ok s => exact ⟨msg', rfl, rfl⟩
    · rw [hs]
      refine .inr ⟨msg, ?_⟩
      rw [steps, hmap]
      cases child.steps with
      | error e => exact ⟨e, rfl, rfl⟩
      | ok ops => exact ⟨msg', rfl, rfl⟩
  | multiplicityReducer child ih | explain child ih | accumulate child ih =>
    exact (ih hplanned hunion _ _ hlimit).map (fun _ _ => id) (fun _ msg h => ⟨msg, h⟩)
      (fun _ => rfl) fun _ => rfl
  | filter predicate child ih | projection expressions child ih =>
    exact (ih hplanned hunion _ _ hlimit).map_snoc (fun _ => rfl) (fun _ => rfl) fun _ => rfl
  | tableFunctionCall rows supportsPushDown limitNum =>
    rw [visitOperator]
    -- without a number nothing is pushed
    by_cases hnone : limitNumber = INVALID_LIMIT ∧ skipNumber = 0
    · rw [if_pos hnone]
      cases supportsPushDown with
      | true => exact visited_self (hlimit.trans (if_pos hnone).symm)
      | false => exact visited_self hlimit
    · rw [if_neg hnone]
      cases supportsPushDown with
      | true =>
        exact .inl ⟨_, rfl, rfl, by rw [LogicalOperator.pushed, pushedSum, if_neg hnone]; rfl, rfl⟩
      | false => exact visited_self hlimit
  | distinct rows limitNum skipNum =>
    rw [visitOperator, LogicalOperator.pushed]
    split_ifs with hnone
    · exact visited_self hlimit
    · exact .inl ⟨_, rfl, rfl, rfl, rfl⟩
  | hashJoin probe build oneToOne =>
    have hprobe : probe.planned = true := hplanned
    rw [visitOperator, LogicalOperator.pushed, pushedSum]
    -- the limit may go below the join, to its probe side
    split_ifs with hnone
    · rw [LogicalOperator.pushedBelow_invalid]
      exact visited_self hlimit
    · exact (pushBelowHashJoin_visited _ hprobe).map_snoc (fun _ => rfl) (fun _ => rfl) fun _ => rfl
  | pathPropertyProbe child properties | recursiveExtend rows limitNum => exact visited_self hlimit
  | unionAll left right => cases hunion
  | other rows => exact visited_self hlimit

/-! ### When results are preserved -/

/-- The number that is set on the source is at least the number of rows that the operators above it
ask for, or no row reaches the end, or the plan fails. -/
def covered (plan : LogicalOperator) : Bool :=
  match plan.steps with
  | .error _ => true
  | .ok ops => plan.pushed 0 INVALID_LIMIT = INVALID_LIMIT ||
      (demand ops).any (· ≤ plan.pushed 0 INVALID_LIMIT) || (entry ops).isNone

/-- A covered limit does not change the result. -/
lemma preserves_of_covered (db : Database R) (hplanned : plan.planned = true)
    (hunion : plan.unionFree = true) (hcovered : covered plan = true) : Preserves db plan := by
  have hspec := visitOperator_spec hplanned hunion 0 INVALID_LIMIT
  have hlimit := LogicalOperator.limitNum_source hplanned
  have hfail : ∀ msg, plan.steps = .error msg → ∀ r, ¬ Returns db plan r := by
    intro msg hmsg r hr
    obtain ⟨ops, hops, -⟩ := (returns_iff db hunion r).mp hr
    rw [hmsg] at hops
    cases hops
  obtain ⟨plan', hvisit, hsteps, hsource, hunion'⟩ | ⟨msg, msg', hvisit, hsteps⟩ := hspec
  · rw [Preserves, rewrite, hvisit]
    have hallRows : plan'.source.allRows db = plan.source.allRows db := by
      rw [hsource]
      rfl
    have hnumber : plan'.source.limitNum = plan.pushed 0 INVALID_LIMIT := by rw [hsource]
    constructor
    · intro r hr
      obtain ⟨ops, hops, m, hstops, hruns⟩ := (returns_iff db (hunion'.trans hunion) r).mp hr
      rw [hsteps] at hops
      rw [hnumber, hallRows] at hstops
      rw [covered, hops] at hcovered
      apply (returns_iff db hunion r).mpr
      refine ⟨ops, hops, _, ?_, runs_of_stops hcovered hstops hruns⟩
      rw [hlimit]
      exact stops_invalid.mpr rfl
    · rintro ⟨r, hr⟩
      obtain ⟨ops, hops, -⟩ := (returns_iff db hunion r).mp hr
      obtain ⟨r', hruns⟩ := exists_runs db.env ops (plan'.source.allRows db)
      exact ⟨r', (returns_iff db (hunion'.trans hunion) r').mpr
        ⟨ops, hsteps.trans hops, _, stops_self _ _, hruns⟩⟩
  · rw [Preserves, rewrite, hvisit]
    exact hfail msg' hsteps

/-- Any other limit changes some result. -/
lemma exists_not_preserves [Infinite R]
    (hplanned : plan.planned = true) (hunion : plan.unionFree = true)
    (hcovered : covered plan = false) : ∃ db : Database R, ¬ Preserves db plan := by
  have hlimit := LogicalOperator.limitNum_source hplanned
  rw [covered] at hcovered
  cases hops : plan.steps with
  | error msg =>
    rw [hops] at hcovered
    cases hcovered
  | ok ops =>
    rw [hops] at hcovered
    simp only [Bool.or_eq_false_iff, decide_eq_false_iff_not] at hcovered
    obtain ⟨⟨hvalid, hdemand⟩, hentry⟩ := hcovered
    have hdemand : ∀ d, demand ops = some d → plan.pushed 0 INVALID_LIMIT < d := by
      intro d hd
      rw [hd] at hdemand
      simpa using hdemand
    obtain ⟨e, he⟩ : ∃ e, entry ops = some e := by
      cases h : entry ops with
      | none =>
        rw [h] at hentry
        cases hentry
      | some e => exact ⟨e, rfl⟩
    obtain ⟨env, m, m', r, hnodup, hle, hcard, hruns, hnot⟩ :=
      RowPipeline.exists_not_runs (R := R) hdemand he
    -- every operator returns the rows of the counterexample, which are distinct
    refine ⟨⟨fun _ => m, env⟩, fun hpreserves => hnot ?_⟩
    have hall : ∀ source : Source, source.allRows ⟨fun _ => m, env⟩ = m := by
      intro source
      rw [Source.allRows]
      split
      · exact hnodup.dedup
      · rfl
    obtain ⟨plan', hvisit, hsteps, hsource, hunion'⟩ | ⟨msg, msg', hvisit, hsteps⟩ :=
      visitOperator_spec hplanned hunion 0 INVALID_LIMIT
    · rw [Preserves, rewrite, hvisit] at hpreserves
      have hstops : Stops plan'.source.limitNum m m' := by
        rw [hsource]
        refine ⟨hle, ?_⟩
        rw [if_neg hvalid, hcard]
        exact min_le_left _ _
      have hreturns := (returns_iff ⟨fun _ => m, env⟩ (hunion'.trans hunion) r).mpr
        ⟨ops, hsteps.trans hops, m', by rwa [hall], hruns⟩
      obtain ⟨ops', hops', m0, hstops0, hruns0⟩ :=
        (returns_iff ⟨fun _ => m, env⟩ hunion r).mp (hpreserves.1 r hreturns)
      rw [hops] at hops'
      cases hops'
      rw [hlimit, hall, stops_invalid] at hstops0
      rwa [← hstops0]
    · rw [hops] at hsteps
      cases hsteps

/-- **Limit push-down.** It preserves what a plan may return, on every database, exactly when the
number that it sets on the source covers the plan. -/
theorem preserves_iff [Infinite R] {plan : LogicalOperator} (hplanned : plan.planned = true)
    (hunion : plan.unionFree = true) :
    (∀ db : Database R, Preserves db plan) ↔ covered plan = true := by
  constructor
  · intro h
    cases hcovered : covered plan with
    | true => rfl
    | false =>
      obtain ⟨db, hdb⟩ := exists_not_preserves (R := R) hplanned hunion hcovered
      exact absurd (h db) hdb
  · exact fun h db => preserves_of_covered db hplanned hunion h

/-- `SKIP 5 LIMIT 10` over a projection of distinct rows. -/
def skipLimitDistinct : LogicalOperator :=
  .limit (some (.literal 5)) (some (.literal 10))
    (.projection 0 (.distinct 0 INVALID_LIMIT INVALID_LIMIT))

theorem preserves_skipLimitDistinct :
    covered skipLimitDistinct = true ∧ ∀ db : Database ℕ, Preserves db skipLimitDistinct :=
  ⟨by decide, (preserves_iff rfl rfl).mpr (by decide)⟩

/-- A `SKIP` alone sets a limit on a table function, by overflow. -/
example : (LogicalOperator.limit (some (.literal 5)) none
    (.tableFunctionCall 0 true INVALID_LIMIT)).pushed 0 INVALID_LIMIT = 4 := by decide

/-- Two rows, and a predicate that holds for the second. -/
def twoRows : Database ℕ where
  rows _ := {0, 1}
  env := ⟨fun _ row => row == 1, fun _ row => row, fun _ _ => 0⟩

/-- `LIMIT 1` over a filter over distinct rows: `DISTINCT` may stop after the row that the filter
drops, and no row is returned. -/
theorem not_preserves_filter :
    ¬ Preserves twoRows (.limit none (some (.literal 1))
      (.filter 0 (.distinct 0 INVALID_LIMIT INVALID_LIMIT))) := by
  intro h
  have hnone : Returns twoRows (.limit none (some (.literal 1)) (.filter 0 (.distinct 0 1 0)))
      0 := by
    refine ⟨none, some 1, rfl, rfl, 0, ⟨{0}, ⟨?_, ?_⟩, rfl⟩, le_rfl, rfl⟩
    · decide
    · decide
  obtain ⟨s, l, hs, hl, m, ⟨m0, hstops, rfl⟩, -, hcard⟩ := h.1 0 hnone
  obtain rfl := Except.ok.inj hs
  obtain rfl := Except.ok.inj hl
  obtain rfl : m0 = {0, 1} := hstops.2
  revert hcard
  decide

end Ladybug.LimitPushDown
