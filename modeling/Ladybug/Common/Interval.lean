import Mathlib.Algebra.Order.Group.Int
import Mathlib.Algebra.Group.Nat.Defs

/-!
# Intervals

`interval_t` has months, days and microseconds. The fields are numbers here; a conversion to a type
of the machine is a remainder, between zero and `2 ^ 64` for `uint64_t` and around zero for the
signed types.
-/

namespace Ladybug

@[ext] structure IntervalT where
  /-- an `int32_t`, as `days` -/
  months : ℤ
  days : ℤ
  /-- an `int64_t` -/
  micros : ℤ
  deriving Repr, DecidableEq

namespace IntervalT

def daysPerMonth : ℤ := 30
def microsPerDay : ℤ := 1000 * 1000 * 60 * 60 * 24
def microsPerMonth : ℤ := microsPerDay * daysPerMonth

/-! ### Comparisons -/

def normalizeIntervalEntries (input : IntervalT) : IntervalT :=
  let extraMonthsDays := input.days.tdiv daysPerMonth
  let extraMonthsMicros := input.micros.tdiv microsPerMonth
  let days := input.days - extraMonthsDays * daysPerMonth
  let micros := input.micros - extraMonthsMicros * microsPerMonth
  let extraDaysMicros := micros.tdiv microsPerDay
  { months := input.months + extraMonthsDays + extraMonthsMicros
    days := days + extraDaysMicros
    micros := micros - extraDaysMicros * microsPerDay }

def greaterThan (left right : IntervalT) : Bool :=
  let l := left.normalizeIntervalEntries
  let r := right.normalizeIntervalEntries
  if l.months > r.months then true
  else if l.months < r.months then false
  else if l.days > r.days then true
  else if l.days < r.days then false
  else l.micros > r.micros

/-- `operator==`; `operator>` is `greaterThan`. -/
def eq (a b : IntervalT) : Bool := a.days = b.days ∧ a.months = b.months ∧ a.micros = b.micros

def ne (a b : IntervalT) : Bool := !a.eq b
def le (a b : IntervalT) : Bool := !a.greaterThan b
def ge (a b : IntervalT) : Bool := a.greaterThan b || a.eq b
def lt (a b : IntervalT) : Bool := !a.ge b

/-! ### Division -/

def getMicro (iv : IntervalT) : ℤ :=
  iv.micros + iv.months * microsPerMonth + iv.days * microsPerDay

/-- `operator/`.  The dividends are converted to `uint64_t`, and the results from it. -/
def divide (iv : IntervalT) (rhs : ℕ) : IntervalT :=
  let monthsRemainder := (iv.months % 2 ^ 64 % rhs).bmod (2 ^ 32)
  let days := iv.days + monthsRemainder * daysPerMonth
  let daysRemainder := (days % 2 ^ 64 % rhs).bmod (2 ^ 32)
  { months := (iv.months % 2 ^ 64 / rhs).bmod (2 ^ 32)
    days := (days % 2 ^ 64 / rhs).bmod (2 ^ 32)
    micros := ((iv.micros + daysRemainder * microsPerDay) % 2 ^ 64 / rhs).bmod (2 ^ 64) }

end IntervalT

end Ladybug
