import Mathlib.Data.List.Nodup

/-!
# Chains of blocks in a heap

Blocks lie at addresses, and each block has a link to the next one. A *chain* is described by the
list of its addresses.

* `Seg next o l e`: the links lead from `o` through the addresses `l` to `e`. A chain that ends
  is a segment to `none`.
* `flat blocks l`: the cells of the blocks at `l`, one after the other. When all blocks have `w`
  cells, cell `q` of the block number `t` is cell `t * w + q` (`flat_getElem?`), and a write to it
  is a write there (`flat_update`).
-/

namespace Chain

open List Function

variable {A C : Type*}

/-! ### Links -/

/-- The links lead from `o` through the addresses of the list to `e`. -/
def Seg (next : A → Option A) : Option A → List A → Option A → Prop
  | o, [], e => o = e
  | o, a :: l, e => o = some a ∧ Seg next (next a) l e

variable {a : A} {t w : ℕ} {l : List A} {e o : Option A} {blocks : A → List C} {next : A → Option A}

lemma Seg.congr {next' : A → Option A}
    (h : ∀ a ∈ l, next' a = next a) (hs : Seg next o l e) : Seg next' o l e := by
  induction l generalizing o with
  | nil => exact hs
  | cons a l ih =>
    refine ⟨hs.1, ?_⟩
    rw [h a mem_cons_self]
    exact ih (fun b hb => h b (mem_cons_of_mem a hb)) hs.2

lemma seg_append {m : List A} : Seg next o (l ++ m) e ↔ ∃ x, Seg next o l x ∧ Seg next x m e := by
  induction l generalizing o with
  | nil => simp [Seg]
  | cons a l ih =>
    rw [cons_append]
    simp only [Seg, ih]
    constructor
    · rintro ⟨ho, x, hl, hm⟩
      exact ⟨x, ⟨ho, hl⟩, hm⟩
    · rintro ⟨x, ⟨ho, hl⟩, hm⟩
      exact ⟨ho, x, hl, hm⟩

lemma seg_concat : Seg next o (l ++ [a]) e ↔ Seg next o l (some a) ∧ next a = e := by
  rw [seg_append]
  constructor
  · rintro ⟨x, hl, hx, he⟩
    exact ⟨hx ▸ hl, he⟩
  · rintro ⟨hl, he⟩
    exact ⟨some a, hl, rfl, he⟩

/-- The links determine a chain. -/
lemma Seg.unique {l' : List A} (hs : Seg next o l none) (hs' : Seg next o l' none) : l = l' := by
  induction l generalizing o l' with
  | nil =>
    cases l' with
    | nil => rfl
    | cons a l' => cases hs.symm.trans hs'.1
  | cons a l ih =>
    cases l' with
    | nil => cases hs'.symm.trans hs.1
    | cons b l' =>
      obtain rfl := Option.some.inj (hs.1.symm.trans hs'.1)
      rw [ih hs.2 hs'.2]

/-- The link of a block elsewhere may be set. -/
lemma Seg.update [DecidableEq A] {x : Option A} (hs : Seg next o l e) (ha : a ∉ l) :
    Seg (Function.update next a x) o l e :=
  hs.congr fun _ hb => update_of_ne (ne_of_mem_of_not_mem hb ha) x next

/-- Setting the link of the last block moves the end of the segment. -/
lemma Seg.relink [DecidableEq A] {e' : Option A} (ha : a ∉ l) (hs : Seg next o (l ++ [a]) e) :
    Seg (Function.update next a e') o (l ++ [a]) e' :=
  seg_concat.mpr ⟨(seg_concat.mp hs).1.update ha, update_self a e' next⟩

/-- The link from one address of a chain leads to the next one. -/
lemma Seg.next_getElem? (hs : Seg next o l e) (ht : l[t]? = some a) :
    next a = if t + 1 < l.length then l[t + 1]? else e := by
  induction l generalizing o t with
  | nil => simp at ht
  | cons b l ih =>
    cases t with
    | zero =>
      obtain rfl : b = a := by simpa using ht
      cases l with
      | nil => simpa [Seg] using hs.2
      | cons c l => simpa using hs.2.1
    | succ t =>
      simpa using ih hs.2 (by simpa using ht)

/-- Induction along a chain, with fuel for each of its blocks. -/
lemma Seg.walk {motive : List A → A → ℕ → Prop}
    (last : ∀ a fuel, next a = none → motive [] a (fuel + 1))
    (more : ∀ a b l fuel, next a = some b → motive l b fuel → motive (b :: l) a (fuel + 1))
    {fuel : ℕ} (hs : Seg next (some a) (a :: l) none) (hfuel : l.length < fuel) :
    motive l a fuel := by
  induction l generalizing a fuel with
  | nil =>
    obtain ⟨fuel, rfl⟩ := Nat.exists_eq_succ_of_ne_zero (Nat.ne_zero_of_lt hfuel)
    exact last a fuel hs.2
  | cons b l ih =>
    obtain ⟨fuel, rfl⟩ := Nat.exists_eq_succ_of_ne_zero (Nat.ne_zero_of_lt hfuel)
    have hnext : next a = some b := hs.2.1
    exact more a b l fuel hnext (ih (hnext ▸ hs.2) (Nat.lt_of_succ_lt_succ hfuel))

/-! ### Cells -/

/-- The cells of the blocks at `l`, one after the other. -/
def flat (blocks : A → List C) (l : List A) : List C := l.flatMap blocks

@[simp] lemma flat_nil (blocks : A → List C) : flat blocks [] = [] := rfl

@[simp] lemma flat_cons (blocks : A → List C) (a : A) (l : List A) :
    flat blocks (a :: l) = blocks a ++ flat blocks l := rfl

@[simp] lemma flat_append (blocks : A → List C) (l m : List A) :
    flat blocks (l ++ m) = flat blocks l ++ flat blocks m :=
  flatMap_append

lemma flat_congr {blocks' : A → List C}
    (h : ∀ a ∈ l, blocks' a = blocks a) : flat blocks' l = flat blocks l :=
  flatMap_congr h

section

variable (hw : ∀ a ∈ l, (blocks a).length = w) {q : ℕ}

include hw

lemma flat_length : (flat blocks l).length = l.length * w := by
  induction l with
  | nil => simp
  | cons a l ih =>
    rw [flat_cons, length_append, hw a mem_cons_self, ih fun b hb => hw b (mem_cons_of_mem a hb),
      length_cons, Nat.succ_mul, Nat.add_comm]

lemma flat_getElem? (ht : l[t]? = some a) (hq : q < w) :
    (flat blocks l)[t * w + q]? = (blocks a)[q]? := by
  induction l generalizing t with
  | nil => simp at ht
  | cons b l ih =>
    have hb : (blocks b).length = w := hw b mem_cons_self
    cases t with
    | zero =>
      obtain rfl : b = a := by simpa using ht
      rw [flat_cons, Nat.zero_mul, Nat.zero_add, getElem?_append_left (hb ▸ hq)]
    | succ t =>
      have hle : (blocks b).length ≤ (t + 1) * w + q := by rw [hb, Nat.succ_mul]; omega
      have hsub : (t + 1) * w + q - w = t * w + q := by rw [Nat.succ_mul]; omega
      rw [flat_cons, getElem?_append_right hle, hb, hsub]
      exact ih (fun c hc => hw c (mem_cons_of_mem b hc)) (by simpa using ht)

/-- The cells of block number `t`. -/
lemma flat_block (ht : l[t]? = some a) : blocks a = ((flat blocks l).drop (t * w)).take w := by
  have ha : (blocks a).length = w := hw a (mem_of_getElem? ht)
  refine ext_getElem? fun q => ?_
  rw [getElem?_take]
  split_ifs with hq
  · rw [getElem?_drop, flat_getElem? hw ht hq]
  · rw [getElem?_eq_none (by omega)]

lemma flat_update [DecidableEq A] (hl : l.Nodup) (ht : l[t]? = some a) (hq : q < w) (c : C) :
    flat (Function.update blocks a ((blocks a).set q c)) l = (flat blocks l).set (t * w + q) c := by
  induction l generalizing t with
  | nil => simp at ht
  | cons b l ih =>
    have hb : (blocks b).length = w := hw b mem_cons_self
    obtain ⟨hbl, hl'⟩ := nodup_cons.mp hl
    cases t with
    | zero =>
      obtain rfl : b = a := by simpa using ht
      have hrest : flat (Function.update blocks b ((blocks b).set q c)) l = flat blocks l :=
        flat_congr fun x hx => update_of_ne (ne_of_mem_of_not_mem hx hbl) _ _
      rw [flat_cons, flat_cons, update_self, hrest, Nat.zero_mul, Nat.zero_add,
        set_append_left q c (hb ▸ hq)]
    | succ t =>
      have hta : l[t]? = some a := by simpa using ht
      have hne : b ≠ a := fun h => hbl (h ▸ mem_of_getElem? hta)
      have hle : (blocks b).length ≤ (t + 1) * w + q := by rw [hb, Nat.succ_mul]; omega
      have hsub : (t + 1) * w + q - w = t * w + q := by rw [Nat.succ_mul]; omega
      rw [flat_cons, flat_cons, update_of_ne hne, set_append_right _ _ hle, hb, hsub, ih (fun x hx
        => hw x (mem_cons_of_mem b hx)) hl' hta]

end

end Chain
