import Mathlib.Data.Multiset.Filter

/-!
# Multimaps with visibility

A multimap is a multiset of entries, each a key with a value. Keys are compared with `==`, which
need not be equality. A reader gives the set of values it sees.
-/

namespace Multimap

variable {K V : Type*} [BEq K]

/-- What a lookup of `key` may return. -/
def Found (M : Multiset (K × V)) (key : K) (seen : V → Bool) : Option V → Prop
  | some v => seen v = true ∧ ∃ e ∈ M, (key == e.1) = true ∧ e.2 = v
  | none => ∀ e ∈ M, (key == e.1) = true → seen e.2 = false

/-- An entry is added, with result `true`, unless a value of the key is seen. -/
def Append (M : Multiset (K × V)) (key : K) (value : V) (seen : V → Bool) (result : Bool)
    (M' : Multiset (K × V)) : Prop :=
  if result then (∀ e ∈ M, (key == e.1) = true → seen e.2 = false) ∧ M' = (key, value) ::ₘ M
  else (∃ e ∈ M, (key == e.1) = true ∧ seen e.2 = true) ∧ M' = M

/-- Entries are added until the first that is not; `n` of them were. -/
def AppendAll (seen : V → Bool) : List (K × V) → Multiset (K × V) → ℕ → Multiset (K × V) → Prop
  | [], M, n, M' => n = 0 ∧ M' = M
  | e :: es, M, n, M' =>
    (∃ m M₁, Append M e.1 e.2 seen true M₁ ∧ AppendAll seen es M₁ m M' ∧ n = m + 1) ∨
      (Append M e.1 e.2 seen false M' ∧ n = 0)

/-- One entry of the key is removed, with result `true`, unless there is none. -/
def Delete (M : Multiset (K × V)) (key : K) (result : Bool) (M' : Multiset (K × V)) : Prop :=
  if result then ∃ e, (key == e.1) = true ∧ M = e ::ₘ M'
  else (∀ e ∈ M, (key == e.1) = false) ∧ M' = M

end Multimap
