import Mathlib.Data.Nat.Bitwise

/-!
# Bit fields of a number

A memory is the number that its bytes spell in little-endian order. `get m p n` are the `n` bits of
`m` from position `p` on, and `set m p n v` is `m` with the `n` lowest bits of `v` written there.

* `get_set_self`: a field that was written is read back;
* `get_set_of_disjoint`: the fields apart from it stay as they were.

`Writes m m' p n vs` says that `m'` is `m` with the values `vs` in a row of fields of width `n` from
position `p` on; `Writes.append` puts two such rows together.
-/

namespace BitField

/-- The `n` bits of `m` from position `p` on. -/
def get (m p n : ℕ) : ℕ :=
  (m >>> p) % 2 ^ n

/-- The number `m` with the `n` lowest bits of `v` at position `p`. -/
def set (m p n v : ℕ) : ℕ :=
  m ^^^ ((get m p n ^^^ v % 2 ^ n) <<< p)

lemma testBit_get (m p n i : ℕ) :
    (get m p n).testBit i = (decide (i < n) && m.testBit (p + i)) := by
  rw [get, Nat.testBit_mod_two_pow, Nat.testBit_shiftRight]

lemma testBit_set (m p n v q : ℕ) :
    (set m p n v).testBit q = if p ≤ q ∧ q < p + n then v.testBit (q - p) else m.testBit q := by
  rw [set, Nat.testBit_xor, Nat.testBit_shiftLeft, Nat.testBit_xor, testBit_get,
    Nat.testBit_mod_two_pow]
  by_cases hp : p ≤ q
  · have hq : p + (q - p) = q := Nat.add_sub_cancel' hp
    rw [hq]
    by_cases hn : q < p + n
    · -- inside the field the two copies of the old bit cancel
      have hlt : q - p < n := by omega
      simp [hp, hn, hlt]
    · have hlt : ¬ q - p < n := by omega
      simp [hn, hlt]
  · simp [hp]

/-- Two memories that agree on the bits of a field have the same field. -/
lemma get_congr {m m' p p' n : ℕ}
    (h : ∀ i, i < n → m.testBit (p + i) = m'.testBit (p' + i)) : get m p n = get m' p' n := by
  apply Nat.eq_of_testBit_eq
  intro i
  rw [testBit_get, testBit_get]
  by_cases hi : i < n
  · rw [h i hi]
  · simp [hi]

/-- A field is a number when its bits are those of the number. -/
lemma get_eq_mod {m p n v : ℕ} (h : ∀ i, i < n → m.testBit (p + i) = v.testBit i) :
    get m p n = v % 2 ^ n := by
  apply Nat.eq_of_testBit_eq
  intro i
  rw [testBit_get, Nat.testBit_mod_two_pow]
  by_cases hi : i < n
  · rw [h i hi]
  · simp [hi]

lemma get_set_self (m p n v : ℕ) : get (set m p n v) p n = v % 2 ^ n := by
  apply get_eq_mod
  intro i hi
  have hin : p ≤ p + i ∧ p + i < p + n := by omega
  rw [testBit_set, if_pos hin, Nat.add_sub_cancel_left]

lemma get_set_of_disjoint {m p n v p' n' : ℕ} (h : p' + n' ≤ p ∨ p + n ≤ p') :
    get (set m p n v) p' n' = get m p' n' := by
  apply get_congr
  intro i hi
  have hout : ¬ (p ≤ p' + i ∧ p' + i < p + n) := by omega
  rw [testBit_set, if_neg hout]

@[simp] lemma set_zero (m p v : ℕ) : set m p 0 v = m := by
  apply Nat.eq_of_testBit_eq
  intro q
  rw [testBit_set, if_neg (by omega)]

/-! ### Rows of fields -/

/-- The memory `m'` has the values `vs` in a row of fields of width `n` from position `p` on, and is
`m` everywhere else. -/
structure Writes (m m' p n : ℕ) (vs : List ℕ) : Prop where
  field : ∀ i v, vs[i]? = some v → get m' (p + i * n) n = v % 2 ^ n
  frame : ∀ q, q < p ∨ p + vs.length * n ≤ q → m'.testBit q = m.testBit q

namespace Writes

lemma nil (m p n : ℕ) : Writes m m p n [] where
  field i v h := by simp at h
  frame _ _ := rfl

lemma set (m p n v : ℕ) : Writes m (BitField.set m p n v) p n [v] where
  field i w h := by
    obtain ⟨rfl, rfl⟩ : i = 0 ∧ v = w := by
      cases i with
      | zero => simpa using h
      | succ i => simp at h
    rw [Nat.zero_mul, Nat.add_zero]
    exact get_set_self m p n v
  frame q hq := by
    have hout : ¬ (p ≤ q ∧ q < p + n) := by
      rw [List.length_singleton, Nat.one_mul] at hq
      omega
    rw [testBit_set, if_neg hout]

variable {m m' m'' p n p' : ℕ} {vs ws : List ℕ}

/-- The fields before and after the row are not touched. -/
lemma get_of_disjoint (h : Writes m m' p n vs) {n' : ℕ}
    (hd : p' + n' ≤ p ∨ p + vs.length * n ≤ p') : get m' p' n' = get m p' n' := by
  apply get_congr
  intro i hi
  apply h.frame
  omega

lemma append (h : Writes m m' p n vs) (h' : Writes m' m'' p' n ws)
    (hp : p' = p + vs.length * n) : Writes m m'' p n (vs ++ ws) where
  field i v hv := by
    rcases Nat.lt_or_ge i vs.length with hi | hi
    · -- the second row starts behind the field
      rw [List.getElem?_append_left hi] at hv
      have hle : (i + 1) * n ≤ vs.length * n := Nat.mul_le_mul_right n hi
      rw [Nat.add_one_mul] at hle
      rw [h'.get_of_disjoint (.inl (by omega))]
      exact h.field i v hv
    · rw [List.getElem?_append_right hi] at hv
      have hpos : p + i * n = p' + (i - vs.length) * n := by
        rw [hp, Nat.add_assoc, ← Nat.add_mul, Nat.add_sub_cancel' hi]
      rw [hpos]
      exact h'.field _ v hv
  frame q hq := by
    rw [List.length_append, Nat.add_mul] at hq
    rw [h'.frame q (by omega), h.frame q (by omega)]

/-- Writing the values of a list one after the other, the first one as number `k`. -/
lemma foldl_set {α : Type*} (f : α → ℕ) (m p n : ℕ) (as : List α) (k : ℕ) :
    Writes m ((as.zipIdx k).foldl (fun m a => BitField.set m (p + a.2 * n) n (f a.1)) m)
      (p + k * n) n (as.map f) := by
  induction as generalizing m k with
  | nil => exact nil m _ n
  | cons a as ih =>
    rw [List.zipIdx_cons, List.foldl_cons, List.map_cons]
    have hrest := ih (BitField.set m (p + k * n) n (f a)) (k + 1)
    rw [Nat.add_one_mul, ← Nat.add_assoc] at hrest
    refine (set m (p + k * n) n (f a)).append hrest ?_
    rw [List.length_singleton, Nat.one_mul]

end Writes

end BitField
