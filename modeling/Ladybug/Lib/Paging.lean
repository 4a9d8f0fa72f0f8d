import Mathlib.Data.List.Basic
import Mathlib.Tactic.Ring

/-!
# Lists in pages

`numPages k n` pages of `k` places each hold `n` elements, element `i` in place `i % k` of page
`i / k`. `Represents` is a list in a table of pages.
-/

namespace Paging

open List

/-- The number of pages for `n` elements. -/
def numPages (k n : ℕ) : ℕ := (n + k - 1) / k

variable {k n i : ℕ}

lemma mul_add_div_of_lt (hi : i < k) (a : ℕ) : (a * k + i) / k = a := by
  rw [Nat.mul_comm, Nat.mul_add_div (by omega), Nat.div_eq_of_lt hi, Nat.add_zero]

lemma lt_numPages_iff (hk : 0 < k) {a : ℕ} : a < numPages k n ↔ a * k < n := by
  rw [numPages, Nat.lt_iff_add_one_le, Nat.le_div_iff_mul_le hk]
  have : (a + 1) * k = a * k + k := by ring
  omega

lemma div_lt_numPages (hk : 0 < k) (hi : i < n) : i / k < numPages k n :=
  (lt_numPages_iff hk).mpr (lt_of_le_of_lt (Nat.div_mul_le_self i k) hi)

section

variable (hk : 0 < k)

include hk

lemma numPages_mono {n' : ℕ} (h : n ≤ n') : numPages k n ≤ numPages k n' := by
  by_contra hlt
  have h1 := (lt_numPages_iff hk).mp (Nat.lt_of_not_le hlt)
  have h2 : ¬numPages k n' * k < n' := fun h' => lt_irrefl _ ((lt_numPages_iff hk).mpr h')
  omega

/-- The pages are full. -/
lemma numPages_of_mod_eq_zero (hn : n % k = 0) : numPages k n = n / k := by
  have hdiv : n / k * k = n := Nat.div_mul_cancel (Nat.dvd_of_mod_eq_zero hn)
  refine le_antisymm ?_ ?_
  · by_contra hlt
    have := (lt_numPages_iff hk).mp (Nat.lt_of_not_le hlt)
    omega
  · by_contra hlt
    have h := Nat.lt_of_not_le hlt
    have h' : ¬numPages k n * k < n := fun h' => lt_irrefl _ ((lt_numPages_iff hk).mpr h')
    have : numPages k n * k < n / k * k := Nat.mul_lt_mul_of_pos_right h hk
    omega

/-- The last page has room. -/
lemma numPages_of_mod_ne_zero (hn : n % k ≠ 0) : numPages k n = n / k + 1 := by
  have hdiv := Nat.div_add_mod n k
  have hmod := Nat.mod_lt n hk
  have hmul : k * (n / k) = n / k * k := Nat.mul_comm ..
  refine le_antisymm ?_ ?_
  · by_contra hlt
    have := (lt_numPages_iff hk).mp (Nat.lt_of_not_le hlt)
    have : (n / k + 1) * k = n / k * k + k := by ring
    omega
  · exact (lt_numPages_iff hk).mpr (by omega)

lemma div_le_numPages (n : ℕ) : n / k ≤ numPages k n := by
  by_cases hn : n % k = 0
  · exact (numPages_of_mod_eq_zero hk hn).ge
  · rw [numPages_of_mod_ne_zero hk hn]
    exact Nat.le_succ _

lemma numPages_le_div_succ (n : ℕ) : numPages k n ≤ n / k + 1 := by
  by_cases hn : n % k = 0
  · rw [numPages_of_mod_eq_zero hk hn]
    exact Nat.le_succ _
  · exact (numPages_of_mod_ne_zero hk hn).le

lemma numPages_succ_of_mod_eq_zero (hn : n % k = 0) : numPages k (n + 1) = numPages k n + 1 := by
  rw [numPages_of_mod_eq_zero hk hn]
  refine le_antisymm ?_ ?_
  · by_contra hlt
    have h := (lt_numPages_iff hk).mp (Nat.lt_of_not_le hlt)
    have hdiv : n / k * k = n := Nat.div_mul_cancel (Nat.dvd_of_mod_eq_zero hn)
    have : (n / k + 1) * k = n / k * k + k := by ring
    omega
  · exact (lt_numPages_iff hk).mpr (lt_of_le_of_lt (Nat.div_mul_le_self n k) (by omega))

lemma numPages_succ_of_mod_ne_zero (hn : n % k ≠ 0) : numPages k (n + 1) = numPages k n := by
  refine le_antisymm ?_ (numPages_mono hk (by omega))
  rw [numPages_of_mod_ne_zero hk hn]
  by_contra hlt
  have h := (lt_numPages_iff hk).mp (Nat.lt_of_not_le hlt)
  have hdiv := Nat.div_add_mod n k
  have hmod := Nat.mod_lt n hk
  have hmul : k * (n / k) = n / k * k := Nat.mul_comm ..
  have : (n / k + 1) * k = n / k * k + k := by ring
  omega

end

/-! ### Tables -/

variable {α : Type*}

/-- Entry `a` of a table whose pages have `m` places. -/
def lookup (m : ℕ) (tables : List (ℕ → Option α)) (a : ℕ) : Option α :=
  tables[a / m]?.bind (· (a % m))

/-- The table holds the list `xs` and has no more pages than that takes. -/
structure Represents (m : ℕ) (tables : List (ℕ → Option α)) (xs : List α) : Prop where
  length_eq : tables.length = numPages m xs.length
  lookup_eq : ∀ a (ha : a < xs.length), lookup m tables a = some xs[a]

namespace Represents

variable {m : ℕ} {tables : List (ℕ → Option α)} {xs : List α}

/-- A new entry in the last page. -/
lemma push_last (hm : 0 < m) (h : Represents m tables xs) (hlt : xs.length / m < tables.length)
    (x : α) :
    Represents m (tables.modify (xs.length / m) fun t => Function.update t (xs.length % m) (some x))
      (xs ++ [x]) := by
  have hmod : xs.length % m ≠ 0 := by
    intro h0
    rw [h.length_eq, numPages_of_mod_eq_zero hm h0] at hlt
    omega
  refine ⟨?_, fun a ha => ?_⟩
  · rw [length_modify, h.length_eq, length_append, length_singleton,
      numPages_succ_of_mod_ne_zero hm hmod]
  · rw [lookup, getElem?_modify]
    by_cases hax : a = xs.length
    · subst hax
      simp [getElem?_eq_getElem hlt]
    · have ha' : a < xs.length := by
        rw [length_append, length_singleton] at ha
        omega
      have hold := h.lookup_eq a ha'
      unfold lookup at hold
      rw [getElem_append_left ha', ← hold]
      cases tables[a / m]? with
      | none => rfl
      | some t =>
        simp only [Option.map_eq_map, Option.map_some, Option.bind_some]
        split_ifs with hpage
        · exact Function.update_of_ne (fun hmod' => hax (Nat.ext_div_mod hpage.symm hmod')) ..
        · rfl

/-- A new entry in a new page. -/
lemma push_new (hm : 0 < m) (h : Represents m tables xs) (hge : tables.length ≤ xs.length / m)
    (x : α) (t : ℕ → Option α) (ht : t (xs.length % m) = some x) :
    Represents m (tables ++ [t]) (xs ++ [x]) := by
  have hmod : xs.length % m = 0 := by
    by_contra h0
    rw [h.length_eq, numPages_of_mod_ne_zero hm h0] at hge
    omega
  have hlen : tables.length = xs.length / m := by
    rw [h.length_eq, numPages_of_mod_eq_zero hm hmod]
  refine ⟨?_, fun a ha => ?_⟩
  · rw [length_append, length_append, length_singleton, length_singleton,
      h.length_eq, numPages_succ_of_mod_eq_zero hm hmod]
  · unfold lookup
    by_cases hax : a = xs.length
    · subst hax
      rw [← hlen, getElem?_append_right le_rfl, Nat.sub_self]
      simp [ht]
    · have ha' : a < xs.length := by
        rw [length_append, length_singleton] at ha
        omega
      have hlt : a / m < tables.length := by
        rw [h.length_eq]
        exact div_lt_numPages hm ha'
      rw [getElem?_append_left hlt, getElem_append_left ha']
      exact h.lookup_eq a ha'

end Represents

end Paging
