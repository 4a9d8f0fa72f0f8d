import Mathlib.Data.List.Basic

/-!
# Lists of computations that can fail

What `List.mapM` does with computations in `Except`: it succeeds when each of them does
(`mapM_ok`), it fails when one of them does (`mapM_error`), and a run over a range of numbers can be
cut into runs over parts of it (`mapM_range_add`, `mapM_range_mul`).
-/

namespace ExceptList

open List

variable {α β γ ε : Type} {as : List α} {f : α → Except ε β}

/-- The parts of a computation of two steps that succeeded. -/
lemma bind_ok {x : Except ε α} {b : β} (h : x >>= f = .ok b) : ∃ a, x = .ok a ∧ f a = .ok b := by
  cases x with
  | error e => cases h
  | ok a => exact ⟨a, rfl, h⟩

lemma mapM_congr {g : α → Except ε β} (h : ∀ a ∈ as, f a = g a) : as.mapM f = as.mapM g := by
  induction as with
  | nil => rfl
  | cons a as ih =>
    rw [mapM_cons, mapM_cons, h a mem_cons_self, ih fun b hb => h b (mem_cons_of_mem a hb)]

lemma mapM_ok {g : α → β} (h : ∀ a ∈ as, f a = .ok (g a)) : as.mapM f = .ok (as.map g) := by
  induction as with
  | nil => rfl
  | cons a as ih =>
    rw [mapM_cons, h a mem_cons_self, ih fun b hb => h b (mem_cons_of_mem a hb)]
    rfl

lemma mapM_error {a : α} {e : ε} (ha : a ∈ as) (h : f a = .error e) :
    ∃ e', as.mapM f = .error e' := by
  induction as with
  | nil => cases ha
  | cons b as ih =>
    rw [mapM_cons]
    cases hb : f b with
    | error e' => exact ⟨e', rfl⟩
    | ok v =>
      rcases mem_cons.mp ha with rfl | hmem
      · rw [hb] at h
        cases h
      · obtain ⟨e', he'⟩ := ih hmem
        rw [he']
        exact ⟨e', rfl⟩

/-- The results of a run that succeeded are the results of its steps. -/
lemma getElem?_of_mapM_ok {bs : List β} (h : as.mapM f = .ok bs) :
    bs.length = as.length ∧ ∀ (i : ℕ) a, as[i]? = some a → ∃ b, bs[i]? = some b ∧ f a = .ok b := by
  induction as generalizing bs with
  | nil =>
    cases h
    exact ⟨rfl, fun i a hi => by simp at hi⟩
  | cons a as ih =>
    rw [mapM_cons] at h
    obtain ⟨b, hb, h⟩ := bind_ok h
    obtain ⟨bs', hbs, h⟩ := bind_ok h
    cases h
    obtain ⟨hlen, hget⟩ := ih hbs
    refine ⟨by rw [length_cons, length_cons, hlen], fun i a' hi => ?_⟩
    cases i with
    | zero =>
      cases hi
      exact ⟨b, rfl, hb⟩
    | succ i => exact hget i a' hi

lemma allM_ok {p : α → Except ε Bool} : as.allM p = .ok true ↔ ∀ a ∈ as, p a = .ok true := by
  induction as with
  | nil => exact iff_of_true rfl fun a ha => (not_mem_nil ha).elim
  | cons a as ih =>
    rw [forall_mem_cons, ← ih, List.allM]
    cases hp : p a with
    | error e => exact iff_of_false (fun h => by cases h) fun h => by cases h.1
    | ok b =>
      cases b with
      | false => exact iff_of_false (fun h => by cases h) fun h => by cases h.1
      | true => exact (and_iff_right rfl).symm

lemma mapM_map (g : α → β) (k : β → Except ε γ) (as : List α) :
    (as.map g).mapM k = as.mapM fun a => k (g a) := by
  induction as with
  | nil => rfl
  | cons a as ih => rw [map_cons, mapM_cons, mapM_cons, ih]

/-- A run over `m + n` numbers is one over the first `m` and one over the others. -/
lemma mapM_range_add (f : ℕ → Except ε β) (m n : ℕ) :
    (range (m + n)).mapM f = (do
      let front ← (range m).mapM f
      let back ← (range n).mapM fun i => f (m + i)
      return front ++ back) := by
  rw [range_add, mapM_append, mapM_map]

/-- A run over `k * n` numbers is one over `k` blocks of `n` numbers. -/
lemma mapM_range_mul (f : ℕ → Except ε β) (k n : ℕ) :
    (range (k * n)).mapM f =
      List.flatten <$> (range k).mapM fun c => (range n).mapM fun i => f (c * n + i) := by
  induction k with
  | zero =>
    rw [Nat.zero_mul]
    rfl
  | succ k ih =>
    rw [Nat.add_one_mul, mapM_range_add, ih, range_succ, mapM_append, mapM_cons, mapM_nil]
    simp only [map_eq_pure_bind, bind_assoc, pure_bind, flatten_append, flatten_cons,
      flatten_nil, append_nil]

end ExceptList
