import Ladybug.Lib.RowPipeline

/-!
# Limit push-down

`LimitPushDownOptimizer` walks down a logical plan, remembers the last `SKIP` and the last `LIMIT`
that it has seen, and sets them on the operator at which it stops: a table function, a `DISTINCT` or
a recursive extend below hash joins.

The operators below the ones at which the optimizer stops are not looked at; `rows` names the rows
that they return. Expressions are named in the same way. A `SKIP` or a `LIMIT` that is not a
literal is not seen by the optimizer, and the plan cannot be mapped.

`Returns` says what a plan may return: rows have no order here, and an operator with a pushed limit
may stop after that many of its rows.
-/

namespace Ladybug.LimitPushDown

open RowPipeline (Op Env Step)

def INVALID_LIMIT : ℕ := 2 ^ 64 - 1

/-- The expression of a `SKIP` or a `LIMIT`. -/
inductive Expression where
  | literal (value : ℤ)
  /-- A literal that is not an integer. -/
  | otherLiteral
  | notLiteral (name : String)
  deriving Repr, DecidableEq

namespace Expression

def canEvaluateAsLiteral : Expression → Bool
  | literal _ | otherLiteral => true
  | notLiteral _ => false

def evaluateAsSkipLimit : Expression → Except String ℕ
  | literal value =>
    if value < 0 then throw "The number of rows to skip/limit must be a non-negative integer."
    else return value.toNat % 2 ^ 64
  | _ => throw "The number of rows to skip/limit must be a non-negative integer."

end Expression

/-- Logical operators; `UNION_ALL` has two children. -/
inductive LogicalOperator where
  | limit (skipNum limitNum : Option Expression) (child : LogicalOperator)
  | multiplicityReducer (child : LogicalOperator)
  | explain (child : LogicalOperator)
  | accumulate (child : LogicalOperator)
  | filter (predicate : ℕ) (child : LogicalOperator)
  | projection (expressions : ℕ) (child : LogicalOperator)
  | tableFunctionCall (rows : ℕ) (supportsPushDown : Bool) (limitNum : ℕ)
  | distinct (rows : ℕ) (limitNum skipNum : ℕ)
  /-- `oneToOne`: every row of the probe side has one match, as when the properties of a node are
  looked up. -/
  | hashJoin (probe : LogicalOperator) (build : ℕ) (oneToOne : Bool)
  | pathPropertyProbe (child : LogicalOperator) (properties : ℕ)
  | recursiveExtend (rows : ℕ) (limitNum : ℕ)
  | unionAll (left right : LogicalOperator)
  | other (rows : ℕ)
  deriving Repr, DecidableEq

/-! ### The optimizer -/

/-- The number after an operator: one that is absent or not a literal leaves it. -/
def readNumber (number : ℕ) : Option Expression → Except String ℕ
  | some e => if e.canEvaluateAsLiteral then e.evaluateAsSkipLimit else return number
  | none => return number

/-- Sets the limit of the recursive extend below a hash join. -/
def pushToExtend (number : ℕ) : LogicalOperator → Except String LogicalOperator
  | .pathPropertyProbe (.recursiveExtend rows _) properties =>
    return .pathPropertyProbe (.recursiveExtend rows number) properties
  | .pathPropertyProbe _ _ => throw
    "Trying to push limit to a non RECURSIVE_EXTEND operator. This should never happen."
  | child => return child

/-- The probe side of a hash join: when it is a hash join too, the first one looks up the properties
of the destination node. -/
def pushBelowHashJoin (number : ℕ) : LogicalOperator → Except String LogicalOperator
  | .hashJoin probe build oneToOne =>
    (fun child => .hashJoin child build oneToOne) <$> pushToExtend number probe
  | probe => pushToExtend number probe

def visitOperator (skipNumber limitNumber : ℕ) : LogicalOperator → Except String LogicalOperator
  | .limit skipNum limitNum child => do
    let skipNumber ← readNumber skipNumber skipNum
    let limitNumber ← readNumber limitNumber limitNum
    .limit skipNum limitNum <$> visitOperator skipNumber limitNumber child
  | .multiplicityReducer child =>
    .multiplicityReducer <$> visitOperator skipNumber limitNumber child
  | .explain child => .explain <$> visitOperator skipNumber limitNumber child
  | .accumulate child => .accumulate <$> visitOperator skipNumber limitNumber child
  | .filter predicate child => .filter predicate <$> visitOperator skipNumber limitNumber child
  | .projection expressions child =>
    .projection expressions <$> visitOperator skipNumber limitNumber child
  | .tableFunctionCall rows supportsPushDown limitNum =>
    if limitNumber = INVALID_LIMIT ∧ skipNumber = 0 then
      return .tableFunctionCall rows supportsPushDown limitNum
    else if supportsPushDown then
      return .tableFunctionCall rows supportsPushDown ((skipNumber + limitNumber) % 2 ^ 64)
    else return .tableFunctionCall rows supportsPushDown limitNum
  | .distinct rows limitNum skipNum =>
    if limitNumber = INVALID_LIMIT ∧ skipNumber = 0 then return .distinct rows limitNum skipNum
    else return .distinct rows limitNumber skipNumber
  | .hashJoin probe build oneToOne =>
    if limitNumber = INVALID_LIMIT ∧ skipNumber = 0 then return .hashJoin probe build oneToOne
    else
      (fun child => .hashJoin child build oneToOne) <$>
        pushBelowHashJoin ((skipNumber + limitNumber) % 2 ^ 64) probe
  | .unionAll left right => do
    return .unionAll (← visitOperator 0 INVALID_LIMIT left) (← visitOperator 0 INVALID_LIMIT right)
  | op => return op

def rewrite (plan : LogicalOperator) : Except String LogicalOperator :=
  visitOperator 0 INVALID_LIMIT plan

/-! ### What plans return -/

/-- `mapLimit`: the number of a `SKIP` or a `LIMIT`. -/
def mapNumber (skipOrLimit : String) : Option Expression → Except String (Option ℕ)
  | none => return none
  | some (.notLiteral name) => throw s!"Cannot evaluate {name} as a valid {skipOrLimit} number."
  | some e => some <$> e.evaluateAsSkipLimit

/-- `mapDistinct`: the number of entries after which the hash aggregate stops. -/
def mapDistinct (limitNum skipNum : ℕ) : ℕ :=
  let number := ((if limitNum = INVALID_LIMIT then 0 else limitNum) +
    (if skipNum = INVALID_LIMIT then 0 else skipNum)) % 2 ^ 64
  if number = 0 then INVALID_LIMIT else number

inductive Name where
  | predicate (i : ℕ)
  | projection (i : ℕ)
  | build (i : ℕ)
  | properties (i : ℕ)
  deriving Repr, DecidableEq

/-- The rows of the operators that are not looked at, and the functions on rows. -/
structure Database (R : Type) where
  rows : ℕ → Multiset R
  env : Env Name R

variable {R : Type} [DecidableEq R]

/-- An operator with a pushed limit may stop after that many of its rows. -/
def Stops (limitNum : ℕ) (rows r : Multiset R) : Prop :=
  r ≤ rows ∧ if limitNum = INVALID_LIMIT then r = rows else min limitNum rows.card ≤ r.card

def Returns (db : Database R) : LogicalOperator → Multiset R → Prop
  | .limit skipNum limitNum child, r => ∃ s l, mapNumber "skip" skipNum = .ok s ∧
      mapNumber "limit" limitNum = .ok l ∧ ∃ m, Returns db child m ∧
      Step db.env (.limit (s.getD 0) l) m r
  | .multiplicityReducer child, r => Returns db child r
  | .explain child, r => Returns db child r
  -- an optional one would return a row of nulls when its child has no row, and is left out
  | .accumulate child, r => Returns db child r
  | .filter predicate child, r =>
    ∃ m, Returns db child m ∧ Step db.env (.filter (.predicate predicate)) m r
  | .projection expressions child, r =>
    ∃ m, Returns db child m ∧ Step db.env (.map (.projection expressions)) m r
  | .tableFunctionCall rows _ limitNum, r => Stops limitNum (db.rows rows) r
  | .distinct rows limitNum skipNum, r =>
    Stops (mapDistinct limitNum skipNum) (db.rows rows).dedup r
  | .hashJoin probe build oneToOne, r => ∃ m, Returns db probe m ∧
      Step db.env (if oneToOne then .map (.build build) else .expand (.build build)) m r
  | .pathPropertyProbe child properties, r =>
    ∃ m, Returns db child m ∧ Step db.env (.map (.properties properties)) m r
  | .recursiveExtend rows limitNum, r => Stops limitNum (db.rows rows) r
  | .unionAll left right, r => ∃ r₁ r₂, Returns db left r₁ ∧ Returns db right r₂ ∧ r = r₁ + r₂
  | .other rows, r => r = db.rows rows

/-- The rewritten plan returns what the plan may return, and fails only when the plan fails. -/
def Preserves (db : Database R) (plan : LogicalOperator) : Prop :=
  match rewrite plan with
  | .error _ => ∀ r, ¬ Returns db plan r
  | .ok plan' => (∀ r, Returns db plan' r → Returns db plan r) ∧
      ((∃ r, Returns db plan r) → ∃ r, Returns db plan' r)

end Ladybug.LimitPushDown
