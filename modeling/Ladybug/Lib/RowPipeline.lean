import Mathlib.Data.Multiset.Bind
import Mathlib.Data.Fintype.EquivFin

/-!
# Pipelines of row operators

A pipeline takes a multiset of rows from a source through a list of operators, the operator next to
the source first. The order of rows is not part of a multiset, so that an operator that skips rows
and returns a limited number of rows may return any rows: a pipeline is a relation (`Runs`).

A source that stops early gives some of its rows. How many does a pipeline need so that nothing is
seen of this?

* `demand`: the number of rows that the operators ask for. An operator that may drop rows asks for
  all of them, unless an operator below it does not let more rows through.
* `entry`: the number of rows without which no row reaches the end; there is none when the pipeline
  always ends empty.
* `runs_of_le`: when the source gives as many rows as the pipeline asks for, every result is one of
  the whole source.
* `exists_not_runs`: when it may give fewer, there are rows and operators for which a result is not
  one of the whole source, unless the pipeline always ends empty (`runs_eq_zero`).
-/

namespace RowPipeline

open Multiset Option

/-- The operators; `i` is the name of a function that is given by an environment. -/
inductive Op (ι : Type) where
  | limit (skip : ℕ) (limit : Option ℕ)
  | filter (i : ι)
  | map (i : ι)
  | expand (i : ι)
  deriving Repr, DecidableEq

/-- What the named functions are. -/
structure Env (ι R : Type) where
  filter : ι → R → Bool
  map : ι → R → R
  expand : ι → R → Multiset R

/-- At most `limit` of `n` rows. -/
def limited (limit : Option ℕ) (n : ℕ) : ℕ :=
  limit.elim n fun l => min l n

variable {ι R : Type}

/-- What one operator may return. -/
def Step (env : Env ι R) : Op ι → Multiset R → Multiset R → Prop
  | .limit skip limit, m, r => r ≤ m ∧ r.card = limited limit (m.card - skip)
  | .filter i, m, r => r = m.filter fun row => env.filter i row = true
  | .map i, m, r => r = m.map (env.map i)
  | .expand i, m, r => r = m.bind (env.expand i)

/-- What a pipeline may return. -/
def Runs (env : Env ι R) : List (Op ι) → Multiset R → Multiset R → Prop
  | [], m, r => r = m
  | op :: ops, m, r => ∃ m', Step env op m m' ∧ Runs env ops m' r

variable {e : ℕ} {env : Env ι R} {m r : Multiset R} {ops : List (Op ι)}

lemma runs_append {ops' : List (Op ι)} :
    Runs env (ops ++ ops') m r ↔ ∃ m', Runs env ops m m' ∧ Runs env ops' m' r := by
  induction ops generalizing m with
  | nil => simp [Runs]
  | cons op ops ih =>
    constructor
    · rintro ⟨m1, hstep, hrest⟩
      obtain ⟨m2, hruns, hlast⟩ := ih.mp hrest
      exact ⟨m2, ⟨m1, hstep, hruns⟩, hlast⟩
    · rintro ⟨m2, ⟨m1, hstep, hruns⟩, hlast⟩
      exact ⟨m1, hstep, ih.mpr ⟨m2, hruns, hlast⟩⟩

lemma runs_singleton {op : Op ι} : Runs env [op] m r ↔ Step env op m r := by
  constructor
  · rintro ⟨m', hstep, rfl⟩
    exact hstep
  · exact fun hstep => ⟨r, hstep, rfl⟩

/-! ### Sub-multisets of a given size -/

/-- Between a multiset and one that contains it there is one of every size. -/
lemma exists_between (hle : r ≤ m) {k : ℕ} (hr : r.card ≤ k)
    (hm : k ≤ m.card) : ∃ t, r ≤ t ∧ t ≤ m ∧ t.card = k := by
  obtain ⟨rest, rfl⟩ := Multiset.le_iff_exists_add.mp hle
  rw [Multiset.card_add] at hm
  obtain ⟨t, ht, hcard⟩ : ∃ t, t ≤ rest ∧ t.card = k - r.card := by
    induction rest using Quotient.inductionOn with
    | h l =>
      refine ⟨(l.take (k - r.card) : List R), (List.take_sublist _ l).subperm, ?_⟩
      rw [coe_card, List.length_take]
      have hm : k ≤ r.card + l.length := hm
      omega
  refine ⟨r + t, Multiset.le_add_right r t, Multiset.add_le_add_left ht, ?_⟩
  rw [Multiset.card_add, hcard]
  omega

lemma limited_le (limit : Option ℕ) (n : ℕ) : limited limit n ≤ n := by
  cases limit with
  | none => exact le_rfl
  | some l => exact min_le_right l n

/-- Every operator returns something. -/
lemma exists_step (env : Env ι R) (op : Op ι) (m : Multiset R) : ∃ r, Step env op m r := by
  cases op with
  | limit skip limit =>
    have hle : limited limit (m.card - skip) ≤ m.card := (limited_le _ _).trans (Nat.sub_le _ _)
    obtain ⟨r, -, hr, hcard⟩ := exists_between (zero_le m) (Nat.zero_le _) hle
    exact ⟨r, hr, hcard⟩
  | filter i | map i | expand i => exact ⟨_, rfl⟩

lemma exists_runs (env : Env ι R) (ops : List (Op ι)) (m : Multiset R) : ∃ r, Runs env ops m r := by
  induction ops generalizing m with
  | nil => exact ⟨m, rfl⟩
  | cons op ops ih =>
    obtain ⟨m', hstep⟩ := exists_step env op m
    obtain ⟨r, hruns⟩ := ih m'
    exact ⟨r, m', hstep, hruns⟩

/-! ### What a pipeline asks for -/

/-- The smaller of two numbers of rows, where `none` is all rows. -/
def least : Option ℕ → Option ℕ → Option ℕ
  | none, b => b
  | a, none => a
  | some a, some b => some (min a b)

/-- The number of rows that the operators ask for; `none` when they ask for all. -/
def demand : List (Op ι) → Option ℕ
  | [] => none
  | .limit skip limit :: ops => (least limit (demand ops)).map (skip + ·)
  | .map _ :: ops => demand ops
  | .filter _ :: _ | .expand _ :: _ => none

/-- The number of rows that it takes for one row to reach the end; `none` when no row does.  One row
may be expanded to as many as it takes. -/
def entry : List (Op ι) → Option ℕ
  | [] => some 1
  | .limit skip limit :: ops =>
    (entry ops).bind fun e => if limit.all (e ≤ ·) then some (skip + e) else none
  | .expand _ :: ops => (entry ops).map fun _ => 1
  | .filter _ :: ops | .map _ :: ops => entry ops

lemma entry_limit {skip : ℕ} {limit : Option ℕ} (h : entry (.limit skip limit :: ops) = some e) :
    ∃ e', entry ops = some e' ∧ (∀ l, limit = some l → e' ≤ l) ∧ e = skip + e' := by
  obtain ⟨e', he', h⟩ := bind_eq_some_iff.mp h
  split at h
  case isTrue hle =>
    refine ⟨e', he', ?_, (some.inj h).symm⟩
    rintro l rfl
    simpa using hle
  case isFalse => cases h

lemma entry_pos (h : entry ops = some e) : 1 ≤ e := by
  induction ops generalizing e with
  | nil =>
    obtain rfl := some.inj h
    exact le_rfl
  | cons op ops ih =>
    cases op with
    | limit skip limit =>
      obtain ⟨e', he', -, rfl⟩ := entry_limit h
      exact (ih he').trans (Nat.le_add_left e' skip)
    | expand i =>
      obtain ⟨-, -, rfl⟩ := map_eq_some_iff.mp h
      exact le_rfl
    | filter i | map i => exact ih h

/-- It takes no more rows than are asked for. -/
lemma entry_le_demand {d : ℕ} (he : entry ops = some e) (hd : demand ops = some d) : e ≤ d := by
  induction ops generalizing e d with
  | nil => cases hd
  | cons op ops ih =>
    cases op with
    | limit skip limit =>
      obtain ⟨e', he', hl, rfl⟩ := entry_limit he
      obtain ⟨d', hd', rfl⟩ := map_eq_some_iff.mp hd
      apply Nat.add_le_add_left
      cases limit with
      | none => exact ih he' hd'
      | some l =>
        have hle := hl l rfl
        cases hrest : demand ops with
        | none =>
          rw [hrest] at hd'
          exact hle.trans (some.inj hd').le
        | some d1 =>
          rw [hrest] at hd'
          obtain rfl := some.inj hd'
          exact le_min hle (ih he' hrest)
    | map i => exact ih he hd
    | filter i | expand i => cases hd

/-- **Enough rows.** When the source gives as many rows as the pipeline asks for, every result is a
result of the whole source. -/
theorem runs_of_le {m' : Multiset R} (hle : m' ≤ m)
    (hdemand : limited (demand ops) m.card ≤ m'.card) (hruns : Runs env ops m' r) :
    Runs env ops m r := by
  induction ops generalizing m m' with
  | nil =>
    -- everything is asked for
    rwa [← eq_of_le_of_card_le hle hdemand]
  | cons op ops ih =>
    obtain ⟨t, hstep, hrest⟩ := hruns
    cases op with
    | limit skip limit =>
      obtain ⟨ht, hcard⟩ := hstep
      have hcards : m'.card ≤ m.card := card_le_card hle
      have hmono : t.card ≤ limited limit (m.card - skip) := by
        rw [hcard]
        cases limit with
        | none => exact Nat.sub_le_sub_right hcards skip
        | some l => exact min_le_min_left l (Nat.sub_le_sub_right hcards skip)
      have hsize : limited limit (m.card - skip) ≤ m.card := (limited_le _ _).trans (Nat.sub_le _ _)
      obtain ⟨t', htt', ht', hcard'⟩ := exists_between (ht.trans hle) hmono hsize
      refine ⟨t', ⟨ht', hcard'⟩, ih htt' ?_ hrest⟩
      rw [hcard, hcard']
      rw [demand] at hdemand
      cases limit <;> cases hd : demand ops <;>
        simp only [hd, least, limited, map_none, map_some, elim_none, elim_some] at hdemand ⊢ <;>
        omega
    | map i =>
      obtain rfl := hstep
      refine ⟨_, rfl, ih (map_le_map hle) ?_ hrest⟩
      rwa [card_map, card_map]
    | filter i | expand i =>
      rw [← eq_of_le_of_card_le hle hdemand]
      exact ⟨t, hstep, hrest⟩

/-- **Too few rows.** When no row reaches the end, the pipeline returns nothing. -/
theorem runs_eq_zero
    (hfew : ∀ e, entry ops = some e → m.card < e) (hruns : Runs env ops m r) : r = 0 := by
  induction ops generalizing m with
  | nil =>
    obtain rfl := hruns
    exact card_eq_zero.mp (Nat.lt_one_iff.mp (hfew 1 rfl))
  | cons op ops ih =>
    obtain ⟨t, hstep, hrest⟩ := hruns
    refine ih (fun e he => ?_) hrest
    cases op with
    | limit skip limit =>
      have hpos := entry_pos he
      rw [hstep.2]
      by_cases hl : limit.all (e ≤ ·) = true
      · have hlt := hfew (skip + e) (by rw [entry, he, bind_some, if_pos hl])
        have hle := limited_le limit (m.card - skip)
        omega
      -- the limit is below what is needed
      · cases limit with
        | none => exact absurd rfl hl
        | some l =>
          have hl : ¬ e ≤ l := by simpa using hl
          exact (min_le_left l _).trans_lt (not_le.mp hl)
    | map i =>
      obtain rfl := hstep
      rw [card_map]
      exact hfew e he
    | filter i =>
      obtain rfl := hstep
      exact (card_le_card (filter_le _ m)).trans_lt (hfew e he)
    | expand i =>
      obtain rfl := hstep
      have hzero : m.card < 1 := hfew 1 (by rw [entry, he]; rfl)
      rw [card_eq_zero.mp (Nat.lt_one_iff.mp hzero)]
      exact entry_pos he

/-! ### Marked rows -/

section Marked

variable (marked : R → Prop) [DecidablePred marked]

/-- Operators that let marked rows through, and expand them to `k` rows. -/
def marking (k : ℕ) : Env ι R where
  filter _ row := decide (marked row)
  map _ row := row
  expand _ row := if marked row then Multiset.replicate k row else 0

variable {marked} {k : ℕ} {row : R}

lemma marking_expand_pos (h : marked row) (i : ι) :
    (marking marked k).expand i row = Multiset.replicate k row :=
  if_pos h

lemma marking_expand_neg (h : ¬ marked row) (i : ι) : (marking marked k).expand i row = 0 :=
  if_neg h

variable (marked) (k)

lemma countP_add_card_le (hle : r ≤ m) : m.countP marked + r.card ≤ r.countP marked + m.card := by
  obtain ⟨rest, rfl⟩ := Multiset.le_iff_exists_add.mp hle
  rw [Multiset.countP_add, Multiset.card_add]
  have hrest := countP_le_card marked rest
  omega

lemma countP_bind_marking (i : ι) (m : Multiset R) :
    (m.bind ((marking marked k).expand i)).countP marked = k * m.countP marked ∧
      ∀ row ∈ m.bind ((marking marked k).expand i), marked row := by
  constructor
  · induction m using Multiset.induction_on with
    | empty => rfl
    | cons a m ih =>
      rw [cons_bind, countP_add, ih, countP_cons]
      by_cases ha : marked a
      · have hcopies : (Multiset.replicate k a).countP marked = k := by
          rw [countP_eq_card.mpr fun b hb => by rwa [eq_of_mem_replicate hb], card_replicate]
        rw [if_pos ha, marking_expand_pos ha, hcopies, Nat.mul_add, Nat.mul_one, Nat.add_comm]
      · rw [if_neg ha, marking_expand_neg ha, countP_zero, Nat.zero_add, Nat.add_zero]
  · intro row hrow
    obtain ⟨a, -, ha⟩ := mem_bind.mp hrow
    by_cases hmarked : marked a
    · rw [marking_expand_pos hmarked] at ha
      rwa [eq_of_mem_replicate ha]
    · rw [marking_expand_neg hmarked] at ha
      exact absurd ha (notMem_zero row)

lemma countP_filter_marking (i : ι) (m : Multiset R) :
    (m.filter fun row => (marking marked k).filter i row = true).countP marked = m.countP marked ∧
    ∀ row ∈ m.filter fun row => (marking marked k).filter i row = true, marked row := by
  have heq : (m.filter fun row => (marking marked k).filter i row = true) = m.filter marked :=
    filter_congr fun row _ => decide_eq_true_iff
  rw [heq]
  refine ⟨?_, fun row hrow => (mem_filter.mp hrow).2⟩
  rw [countP_filter]
  simp

variable {marked} {k}

/-- Enough marked rows among those that are asked for: one of them reaches the end. -/
lemma countP_pos_of_runs (hk : ∀ ops' e, ops' <:+ ops → entry ops' = some e → e ≤ k)
    (he : entry ops = some e) (hcount : e ≤ m.countP marked)
    (hfew : (∀ row ∈ m, marked row) ∨ ∀ d, demand ops = some d → m.card ≤ d)
    (hruns : Runs (marking marked k) ops m r) : 1 ≤ r.countP marked := by
  induction ops generalizing m e with
  | nil =>
    obtain rfl := hruns
    obtain rfl := some.inj he
    exact hcount
  | cons op ops ih =>
    obtain ⟨t, hstep, hrest⟩ := hruns
    have hk' : ∀ ops' e, ops' <:+ ops → entry ops' = some e → e ≤ k :=
      fun ops' e hsuffix => hk ops' e (hsuffix.trans (List.suffix_cons op ops))
    cases op with
    | limit skip limit =>
      obtain ⟨e', he', hl, rfl⟩ := entry_limit he
      obtain ⟨ht, hcard⟩ := hstep
      have hdrop := countP_add_card_le marked ht
      obtain hall | hfew := hfew
      · -- all rows are marked, so that it does not matter which are dropped
        have htall : ∀ row ∈ t, marked row := fun row hrow => hall row (mem_of_le ht hrow)
        refine ih hk' he' ?_ (.inl htall) hrest
        rw [countP_eq_card.mpr hall] at hcount
        rw [countP_eq_card.mpr htall, hcard]
        cases limit with
        | none =>
          show e' ≤ m.card - skip
          omega
        | some l => exact le_min (hl l rfl) (by omega)
      · -- the limit is not reached
        have hkeep : t.card = m.card - skip := by
          rw [hcard]
          cases limit with
          | none => rfl
          | some l =>
            apply Nat.min_eq_right
            cases hd : demand ops with
            | none =>
              have hle := hfew (skip + l) (by rw [demand, hd]; rfl)
              omega
            | some d =>
              have hle := hfew (skip + min l d) (by rw [demand, hd]; rfl)
              omega
        refine ih hk' he' (by omega) (.inr fun d hd => ?_) hrest
        cases limit with
        | none =>
          have hle := hfew (skip + d) (by rw [demand, hd]; rfl)
          omega
        | some l =>
          have hle := hfew (skip + min l d) (by rw [demand, hd]; rfl)
          omega
    | map i =>
      obtain rfl := hstep
      have hid : m.map ((marking marked k).map i) = m := map_id m
      rw [hid] at hrest
      exact ih hk' he hcount hfew hrest
    | filter i =>
      obtain rfl := hstep
      -- the rows that are kept are all marked
      obtain ⟨hsame, hall⟩ := countP_filter_marking marked k i m
      exact ih hk' he (hsame ▸ hcount) (.inl hall) hrest
    | expand i =>
      obtain rfl := hstep
      obtain ⟨e', he', rfl⟩ := map_eq_some_iff.mp he
      -- every marked row is copied `k` times
      obtain ⟨hcopies, hall⟩ := countP_bind_marking marked k i m
      refine ih hk' he' ?_ (.inl hall) hrest
      rw [hcopies]
      exact (hk ops e' (List.suffix_cons _ ops) he').trans (Nat.le_mul_of_pos_right k hcount)

/-- Too few marked rows: the operators may drop all of them. -/
lemma exists_runs_countP_zero (he : entry ops = some e) (hcount : m.countP marked < e) :
    ∃ r, Runs (marking marked k) ops m r ∧ r.countP marked = 0 := by
  induction ops generalizing m e with
  | nil =>
    obtain rfl := some.inj he
    exact ⟨m, rfl, Nat.lt_one_iff.mp hcount⟩
  | cons op ops ih =>
    cases op with
    | limit skip limit =>
      obtain ⟨e', he', -, rfl⟩ := entry_limit he
      have hpos := entry_pos he'
      -- rows that are not marked are kept first
      have hsize : limited limit (m.card - skip) ≤ m.card - skip := limited_le _ _
      set rest := m.filter fun row => ¬ marked row with hrest
      have hle : rest ≤ m := filter_le _ m
      have hsplit : m.countP marked + rest.card = m.card := by
        rw [hrest, ← countP_eq_card_filter]
        exact (card_eq_countP_add_countP marked m).symm
      have hnone : ∀ t, t ≤ rest → t.countP marked = 0 := by
        intro t ht
        apply countP_eq_zero.mpr
        intro row hrow
        exact (mem_filter.mp (mem_of_le ht hrow)).2
      obtain ⟨t, ht, hcard, hfew⟩ : ∃ t, t ≤ m ∧ t.card = limited limit (m.card - skip) ∧
          t.countP marked < e' := by
        obtain hfit | hmore := Nat.le_total (limited limit (m.card - skip)) rest.card
        · obtain ⟨t, -, ht, hcard⟩ := exists_between (zero_le rest) (Nat.zero_le _) hfit
          refine ⟨t, ht.trans hle, hcard, ?_⟩
          rw [hnone t ht]
          exact hpos
        · obtain ⟨t, hrt, ht, hcard⟩ := exists_between hle hmore (hsize.trans (Nat.sub_le _ _))
          refine ⟨t, ht, hcard, ?_⟩
          have hdrop := countP_add_card_le marked hrt
          have hzero := hnone rest le_rfl
          omega
      obtain ⟨r, hruns, hzero⟩ := ih he' hfew
      exact ⟨r, ⟨t, ⟨ht, hcard⟩, hruns⟩, hzero⟩
    | map i =>
      obtain ⟨r, hruns, hzero⟩ := ih he hcount
      exact ⟨r, ⟨m, (map_id m).symm, hruns⟩, hzero⟩
    | filter i =>
      have hsame := (countP_filter_marking marked k i m).1
      obtain ⟨r, hruns, hzero⟩ := ih he (hsame.symm ▸ hcount)
      exact ⟨r, ⟨_, rfl, hruns⟩, hzero⟩
    | expand i =>
      obtain ⟨e', he', rfl⟩ := map_eq_some_iff.mp he
      have hcopies := (countP_bind_marking marked k i m).1
      rw [Nat.lt_one_iff.mp hcount, Nat.mul_zero] at hcopies
      have hfew : (m.bind ((marking marked k).expand i)).countP marked < e' := by
        rw [hcopies]
        exact entry_pos he'
      obtain ⟨r, hruns, hzero⟩ := ih he' hfew
      exact ⟨r, ⟨_, rfl, hruns⟩, hzero⟩

end Marked

/-- The entries of a pipeline are bounded. -/
lemma exists_entry_le (ops : List (Op ι)) :
    ∃ k, ∀ ops' e, ops' <:+ ops → entry ops' = some e → e ≤ k := by
  induction ops with
  | nil =>
    refine ⟨1, fun ops' e hsuffix he => ?_⟩
    rw [List.suffix_nil.mp hsuffix] at he
    exact (some.inj he).ge
  | cons op ops ih =>
    obtain ⟨k, hk⟩ := ih
    refine ⟨max k ((entry (op :: ops)).getD 0), fun ops' e hsuffix he => ?_⟩
    obtain rfl | hsuffix := List.suffix_cons_iff.mp hsuffix
    · rw [he]
      exact le_max_right k e
    · exact (hk ops' e hsuffix he).trans (le_max_left _ _)

/-- **Not enough rows.** When the source may give fewer rows than the pipeline asks for, and a row
can reach the end at all, a result need not be one of the whole source. -/
theorem exists_not_runs [Infinite R] {n : ℕ}
    (hn : ∀ d, demand ops = some d → n < d) (he : entry ops = some e) :
    ∃ (env : Env ι R) (m m' r : Multiset R), m.Nodup ∧ m' ≤ m ∧ m'.card = n ∧
      Runs env ops m' r ∧ ¬ Runs env ops m r := by
  classical
  obtain ⟨k, hk⟩ := exists_entry_le ops
  have hpos := entry_pos he
  -- as many marked rows as it takes, and one row more than the source gives
  obtain ⟨s, hs⟩ := Infinite.exists_subset_card_eq R (max (n + 1) e)
  obtain ⟨t, hts, ht⟩ := Finset.exists_subset_card_eq (hs ▸ le_max_right (n + 1) e)
  obtain ⟨a, ha⟩ : t.Nonempty := Finset.card_pos.mp (ht ▸ hpos)
  have hcount : s.val.countP (· ∈ t) = e := by
    rw [countP_eq_card_filter, ← Finset.filter_val, Finset.card_val,
      Finset.filter_mem_eq_inter, Finset.inter_eq_right.mpr hts, ht]
  have hcard : s.val.card = max (n + 1) e := hs
  have herase : (s.val.erase a).card = max (n + 1) e - 1 := by
    rw [card_erase_of_mem (hts ha), hcard]
    rfl
  -- the source leaves out a marked row
  obtain ⟨m', -, hm', hn'⟩ := exists_between (zero_le (s.val.erase a)) (Nat.zero_le n)
    (by rw [herase]; omega)
  have hle : m' ≤ s.val := hm'.trans (erase_le a s.val)
  have hfew : m'.countP (· ∈ t) < e := by
    have hsplit : s.val.countP (· ∈ t) = (s.val.erase a).countP (· ∈ t) + 1 := by
      conv_lhs => rw [← cons_erase (hts ha : a ∈ s.val)]
      exact countP_cons_of_pos _ ha
    have hmono := countP_le_of_le (· ∈ t) hm'
    omega
  obtain ⟨r, hruns, hzero⟩ := exists_runs_countP_zero (k := k) he hfew
  refine ⟨marking (· ∈ t) k, s.val, m', r, s.nodup, hle, hn', hruns, fun hall => ?_⟩
  have hone := countP_pos_of_runs hk he hcount.ge (.inr fun d hd => ?_) hall
  · omega
  · rw [hcard]
    exact max_le (hn d hd) (entry_le_demand he hd)

end RowPipeline
