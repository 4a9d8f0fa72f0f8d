import Mathlib.Algebra.Group.Int.Defs
import Mathlib.Algebra.Group.Nat.Defs

/-!
# Sequences

`SequenceCatalogEntry` hands out values. Its data are shared by all transactions: `nextKVal`
advances them, and its record in the undo buffer of the transaction holds what they were before.
-/

namespace Ladybug

/-- What changes of a `SequenceData`, which is also `SequenceRollbackData`. -/
structure SequenceData where
  usageCount : ℕ
  currVal : ℤ
  deriving Repr, DecidableEq

/-- What a sequence is defined to be: its name and the fields of `SequenceData` that stay. -/
structure SequenceInfo where
  name : String
  increment : ℤ
  minValue : ℤ
  maxValue : ℤ
  cycle : Bool

namespace SequenceInfo

/-- `nextValNoLock`.  The first call leaves the value as it is. -/
def nextValNoLock (info : SequenceInfo) (data : SequenceData) : Except String SequenceData :=
  if data.usageCount = 0 then .ok { data with usageCount := 1 }
  else
    let usageCount := (data.usageCount + 1) % 2 ^ 64
    let next := data.currVal + info.increment
    let overflow := next < -2 ^ 63 || 2 ^ 63 ≤ next
    if info.cycle then
      if overflow then
        .ok ⟨usageCount, if info.increment < 0 then info.maxValue else info.minValue⟩
      else if next < info.minValue then .ok ⟨usageCount, info.maxValue⟩
      else if next > info.maxValue then .ok ⟨usageCount, info.minValue⟩
      else .ok ⟨usageCount, next⟩
    else
      let minError : Bool := if overflow then info.increment < 0 else next < info.minValue
      let maxError : Bool := if overflow then info.increment > 0 else next > info.maxValue
      if minError then
        .error ("nextval: reached minimum value of sequence \"" ++ info.name ++ "\" " ++
          toString info.minValue)
      else if maxError then
        .error ("nextval: reached maximum value of sequence \"" ++ info.name ++ "\" " ++
          toString info.maxValue)
      else .ok ⟨usageCount, next⟩

/-- The loop of `nextKVal`.  An exception leaves the data where the loop has brought them. -/
def nextKValLoop (info : SequenceInfo) :
    ℕ → SequenceData → List ℤ → SequenceData × Except String (List ℤ)
  | 0, data, resultVector => (data, .ok resultVector)
  | count + 1, data, resultVector =>
    match info.nextValNoLock data with
    | .ok data => info.nextKValLoop count data (resultVector ++ [data.currVal])
    | .error e => (data, .error e)

/-- Whether the next `count` calls of `nextValNoLock` return. -/
def hasValues (info : SequenceInfo) : ℕ → SequenceData → Bool
  | 0, _ => true
  | count + 1, data =>
    match info.nextValNoLock data with
    | .ok data => info.hasValues count data
    | .error _ => false

/-- Whether `tryCast` to `int64_t` succeeds. -/
def isInt64 (x : ℤ) : Bool := -2 ^ 63 ≤ x && x < 2 ^ 63

/-- What `bindCreateSequence` checks of the numbers, and the data of the new sequence. -/
def create (info : SequenceInfo) (startWith : ℤ) : Except String SequenceData :=
  if !isInt64 info.increment then
    .error "Out of bounds: SEQUENCE accepts integers within INT64."
  else if info.increment = 0 then .error "INCREMENT must be non-zero."
  else if !isInt64 info.minValue || !isInt64 info.maxValue || !isInt64 startWith then
    .error "Out of bounds: SEQUENCE accepts integers within INT64."
  else if info.maxValue < info.minValue then
    .error "SEQUENCE MAXVALUE should be greater than or equal to MINVALUE."
  else if startWith < info.minValue ∨ startWith > info.maxValue then
    .error "SEQUENCE START value should be between MINVALUE and MAXVALUE."
  else .ok ⟨0, startWith⟩

/-- What the next `n` calls of `nextval` return or throw. -/
def nextvals (info : SequenceInfo) : ℕ → SequenceData → List (Except String ℤ)
  | 0, _ => []
  | n + 1, data =>
    match info.nextValNoLock data with
    | .ok data => .ok data.currVal :: info.nextvals n data
    | .error e => .error e :: info.nextvals n data

end SequenceInfo

/-! ### Export -/

/-- The statements that `toCypher` prints: `CREATE SEQUENCE` with its numbers, and `RETURN nextval`.
The two texts for the name are with their quotes; numbers are read back as they were printed. -/
structure SequenceStatements where
  escapedSymbolicName : String
  startWith : ℤ
  increment : ℤ
  minValue : ℤ
  maxValue : ℤ
  cycle : Bool
  stringLiteral : String

def SequenceInfo.toCypher (info : SequenceInfo) (data : SequenceData) : SequenceStatements where
  escapedSymbolicName := "`" ++ info.name ++ "`"
  startWith := data.currVal
  increment := info.increment
  minValue := info.minValue
  maxValue := info.maxValue
  cycle := info.cycle
  stringLiteral := "'" ++ info.name ++ "'"

namespace SequenceStatements

/-- `transformSymbolicName` of an `EscapedSymbolicName`.  Every name that a statement can give a
sequence is one between its quotes, as backticks are in a name only two by two. -/
def transformSymbolicName (escapedSymbolName : String) : String :=
  String.ofList escapedSymbolName.toList.tail.dropLast

/-- What the escape character before a letter makes of it. -/
def escapedChar (c : Char) : Option Char :=
  match c.toLower with
  | 'b' => some '\x08'
  | 'f' => some '\x0c'
  | 'n' => some '\n'
  | 'r' => some '\r'
  | 't' => some '\t'
  | _ => if c = '\\' ∨ c = '\'' ∨ c = '"' then some c else none

def isHexDigit (c : Char) : Bool := c.isDigit || ('a' ≤ c.toLower && c.toLower ≤ 'f')

/-- `transformStringLiteral`, behind the first quote; `none` when the literal does not end where the
text does.  An escaped byte is kept as it is written.  Escaped code points, which name another
sequence, are not read. -/
def transformStringLiteral : List Char → Option (List Char)
  | [] => none
  | ['\''] => some []
  | '\'' :: _ => none
  | '\\' :: c :: rest =>
    if c = 'x' ∨ c = 'X' then
      match rest with
      | a :: b :: rest =>
        if isHexDigit a && isHexDigit b then
          (transformStringLiteral rest).map ('\\' :: c :: a :: b :: ·)
        else none
      | _ => none
    else
      match escapedChar c with
      | some c => (transformStringLiteral rest).map (c :: ·)
      | none => none
  | ['\\'] => none
  | c :: rest => (transformStringLiteral rest).map (c :: ·)

/-- The sequence that the statements leave in an empty database. -/
def run (statements : SequenceStatements) : Except String (SequenceInfo × SequenceData) := do
  let info : SequenceInfo :=
    { name := transformSymbolicName statements.escapedSymbolicName
      increment := statements.increment
      minValue := statements.minValue
      maxValue := statements.maxValue
      cycle := statements.cycle }
  let data ← info.create statements.startWith
  match transformStringLiteral statements.stringLiteral.toList.tail with
  | none => .error "Parser exception"
  | some name =>
    if String.ofList name = info.name then return (info, ← info.nextValNoLock data)
    else .error (String.ofList name ++ " does not exist in catalog.")

end SequenceStatements

/-! ### Transactions -/

def SequenceData.rollbackVal (_ : SequenceData) (usageCount : ℕ) (currVal : ℤ) : SequenceData where
  usageCount := usageCount
  currVal := currVal

/-- A call of `nextKVal` that has returned. -/
structure SequenceCall where
  /-- the transaction -/
  id : ℕ
  /-- the `SequenceRollbackData` in its undo buffer -/
  rollbackData : SequenceData
  /-- the values that were handed out -/
  values : List ℤ
  committed : Bool
  deriving DecidableEq

/-- A call of a transaction that is still running. -/
def SequenceCall.isRunning (id : ℕ) (c : SequenceCall) : Bool := c.id == id && !c.committed

/-- A sequence, and the calls that have not been rolled back, in their order. -/
structure SequenceSystem where
  data : SequenceData
  calls : List SequenceCall
  deriving DecidableEq

inductive SequenceAction where
  | nextKVal (id count : ℕ)
  | commit (id : ℕ)
  | rollback (id : ℕ)

namespace SequenceSystem

/-- A sequence that has just been created. -/
def init (startWith : ℤ) : SequenceSystem where
  data := ⟨0, startWith⟩
  calls := []

/-- The records of the sequence in the undo buffer of a transaction. -/
def undoBuffer (s : SequenceSystem) (id : ℕ) : List SequenceData :=
  (s.calls.filter (SequenceCall.isRunning id)).map SequenceCall.rollbackData

/-- One action; `none` when the assertion of `nextKVal` fails.  `pushSequenceChange` comes behind
the loop, so that a call that throws leaves no record. -/
def step (info : SequenceInfo) (s : SequenceSystem) : SequenceAction → Option SequenceSystem
  | .nextKVal id count =>
    if 0 < count then
      match info.nextKValLoop count s.data [] with
      | (data, .ok values) => some ⟨data, s.calls ++ [⟨id, s.data, values, false⟩]⟩
      | (data, .error _) => some { s with data := data }
    else none
  | .commit id => some { s with
      calls := s.calls.map fun c => if c.id = id then { c with committed := true } else c }
  | .rollback id => some {
      data := (s.undoBuffer id).reverse.foldl
        (fun data r => data.rollbackVal r.usageCount r.currVal) s.data
      calls := s.calls.filter fun c => !c.isRunning id }

end SequenceSystem

end Ladybug
