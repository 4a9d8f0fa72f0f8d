import Mathlib.Order.Basic

/-!
# Stamps of multi-version concurrency control

A version of a datum is written by a transaction that is still running, or by one that has
committed at some timestamp. A reader with an id and a start timestamp sees its own versions and
those committed no later than it started. The stamps here are kept apart by constructor; a
program that stores both kinds in one machine word has to connect its words to them.
-/

namespace Mvcc

/-- Who wrote a version. -/
inductive Stamp where
  /-- the transaction `id`, still running -/
  | active (id : ℕ)
  /-- a transaction that committed at `ts` -/
  | committed (ts : ℕ)
  deriving Repr, DecidableEq

namespace Stamp

/-- A reader sees its own versions and those committed no later than it started. -/
def visibleTo (id startTS : ℕ) : Stamp → Bool
  | active t => t == id
  | committed ts => ts ≤ startTS

/-- The stamp after transaction `id` has committed at `ts`. -/
def commit (id ts : ℕ) (s : Stamp) : Stamp :=
  if s = active id then committed ts else s

@[simp] lemma visibleTo_active (id startTS t : ℕ) :
    (active t).visibleTo id startTS = (t == id) := rfl

@[simp] lemma visibleTo_committed (id startTS ts : ℕ) :
    (committed ts).visibleTo id startTS = decide (ts ≤ startTS) := rfl

end Stamp

/-- Whether an optional version is there and seen by the reader. -/
def visible (id startTS : ℕ) (s : Option Stamp) : Bool :=
  s.any (Stamp.visibleTo id startTS)

@[simp] lemma visible_none (id startTS : ℕ) : visible id startTS none = false := rfl

@[simp] lemma visible_some (id startTS : ℕ) (s : Stamp) :
    visible id startTS (some s) = s.visibleTo id startTS := rfl

/-- Forgets the stamps of transaction `id`, which has rolled back. -/
def forget (id : ℕ) (s : Option Stamp) : Option Stamp :=
  if s = some (.active id) then none else s

@[simp] lemma forget_none (id : ℕ) : forget id none = none := rfl

/-- Forgetting drops the transaction's stamps. -/
lemma forget_eq_some_iff {id : ℕ} {s : Option Stamp} {x : Stamp} :
    forget id s = some x ↔ s = some x ∧ x ≠ .active id := by
  unfold forget
  split_ifs with h
  · rw [h]
    simp only [Option.some.injEq, ne_eq, false_iff, not_and, not_not]
    exact Eq.symm
  · refine ⟨fun hs => ⟨hs, fun hx => h (hx ▸ hs)⟩, And.left⟩

/-- Puts `r` in the place of the stamps of transaction `id`, which has ended. -/
def resolve (id : ℕ) (r s : Option Stamp) : Option Stamp :=
  if s = some (.active id) then r else s

lemma map_commit_eq_resolve (id ts : ℕ) (s : Option Stamp) :
    s.map (Stamp.commit id ts) = resolve id (some (.committed ts)) s := by
  rcases s with _ | x
  · rfl
  · simp only [Option.map_some, Stamp.commit, resolve, Option.some.injEq]
    split_ifs <;> rfl

/-- A resolved transaction is no longer active. -/
lemma resolve_eq_active_iff {id t : ℕ} {r s : Option Stamp} (hr : ∀ t, r ≠ some (.active t)) :
    resolve id r s = some (.active t) ↔ s = some (.active t) ∧ t ≠ id := by
  unfold resolve
  split_ifs with h
  · simp only [hr t, h, Option.some.injEq, Stamp.active.injEq, false_iff, not_and, not_not]
    exact Eq.symm
  · refine ⟨fun hs => ⟨hs, fun ht => h (ht ▸ hs)⟩, And.left⟩

lemma map_commit_eq_active_iff {id ts t : ℕ} {s : Option Stamp} :
    s.map (Stamp.commit id ts) = some (.active t) ↔ s = some (.active t) ∧ t ≠ id := by
  rw [map_commit_eq_resolve]
  exact resolve_eq_active_iff (by simp)

end Mvcc
