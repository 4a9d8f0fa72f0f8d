import Ladybug.Storage.Equiv.ChunkedNodeGroup
import Mathlib.Data.Option.Basic

/-!
# Correctness of the appends to a node group

`NodeRep` connects a node group with the rows in its chunked groups.

* `applyFuncToChunkedGroups_spec`: an undo record reaches the rows of its batch.
* `scanAll_spec` and `lookup_spec`: a node group shows its rows.
-/

namespace Ladybug

open Mvcc VersionInfo List ChunkedNodeGroup
open Nat (add_assoc add_comm add_zero sub_self zero_le)
open Option (bind_eq_bind bind_some)

variable {cap m : ℕ} {V : Type}

/-! ### The groups of a node group -/

variable {base chunkCap j n q start : ℕ} {α β : Type} {old rows : List (StampedRow m V)}
  {g : ChunkedNodeGroup cap m V} {A rss rss' : List (List (StampedRow m V))}
  {gs mems pre : List (ChunkedNodeGroup cap m V)}
  {P Q : ℕ → List (StampedRow m V) → ChunkedNodeGroup cap m V → Prop} {ng : NodeGroup cap m V}
  {ls : List (List α)}

/-- Consecutive groups and their rows: each group starts where the rows before it end. -/
inductive GroupsRep (P : ℕ → List (StampedRow m V) → ChunkedNodeGroup cap m V → Prop) :
    ℕ → List (ChunkedNodeGroup cap m V) → List (List (StampedRow m V)) → Prop
  | nil (start : ℕ) : GroupsRep P start [] []
  | cons {start : ℕ} {g : ChunkedNodeGroup cap m V} {rows : List (StampedRow m V)}
      {gs : List (ChunkedNodeGroup cap m V)} {rss : List (List (StampedRow m V))}
      (head : P start rows g) (tail : GroupsRep P (start + rows.length) gs rss) :
      GroupsRep P start (g :: gs) (rows :: rss)

namespace GroupsRep

lemma length_eq (h : GroupsRep P start gs rss) : gs.length = rss.length := by
  induction h with
  | nil => rfl
  | cons _ _ ih => rw [length_cons, length_cons, ih]

lemma mono (hPQ : ∀ start rows g, P start rows g → Q start rows g)
    (h : GroupsRep P start gs rss) : GroupsRep Q start gs rss := by
  induction h with
  | nil => exact .nil _
  | cons head _ ih => exact .cons (hPQ _ _ _ head) ih

lemma append (h : GroupsRep P start gs rss) {gs' : List (ChunkedNodeGroup cap m V)}
    (h' : GroupsRep P (start + rss.flatten.length) gs' rss') :
    GroupsRep P start (gs ++ gs') (rss ++ rss') := by
  induction h with
  | nil => exact h'
  | cons head _ ih =>
    refine .cons head (ih ?_)
    rw [flatten_cons, length_append, ← add_assoc] at h'
    exact h'

/-- The groups before and after a row. -/
lemma split (h : GroupsRep P start gs (rss ++ rss')) :
    ∃ gs1 gs2, gs = gs1 ++ gs2 ∧ GroupsRep P start gs1 rss ∧
      GroupsRep P (start + rss.flatten.length) gs2 rss' := by
  induction rss generalizing start gs with
  | nil => exact ⟨[], gs, rfl, .nil _, h⟩
  | cons rows rss ih =>
    cases h with
    | cons head tail =>
      obtain ⟨gs1, gs2, rfl, h1, h2⟩ := ih tail
      refine ⟨_, gs2, rfl, .cons head h1, ?_⟩
      rw [flatten_cons, length_append, ← add_assoc]
      exact h2

end GroupsRep

lemma length_flatten_of_full (h : ∀ l ∈ ls, l.length = n) : ls.flatten.length = ls.length * n := by
  rw [length_flatten, map_congr_left h, map_const', sum_replicate_nat]

/-- Where a position lies in consecutive lists that are full up to the last one. -/
lemma exists_split_of_full (hfull : ∀ l ∈ ls.dropLast, l.length = n) (hq : q < ls.flatten.length) :
    ∃ A b B j, ls = A ++ b :: B ∧ (∀ a ∈ A, a.length = n) ∧ j < b.length ∧
      q = A.flatten.length + j := by
  induction ls generalizing q with
  | nil => simp at hq
  | cons l ls ih =>
    by_cases hl : q < l.length
    · exact ⟨[], l, ls, q, rfl, by simp, hl, by simp⟩
    · rw [flatten_cons, length_append] at hq
      have hne : ls ≠ [] := by
        rintro rfl
        simp at hq
        omega
      rw [dropLast_cons_of_ne_nil hne] at hfull
      obtain ⟨A, b, B, j, rfl, hA, hj, hqj⟩ := ih (q := q - l.length)
        (fun r hr => hfull r (by simp [hr])) (by omega)
      refine ⟨l :: A, b, B, j, rfl, ?_, hj, ?_⟩
      · intro a ha
        rcases mem_cons.mp ha with rfl | ha
        · exact hfull a (by simp)
        · exact hA a ha
      · rw [flatten_cons, length_append]
        omega

/-- A mapped list that is cut into pieces comes from a list that is cut the same way. -/
lemma map_eq_flatten {f : α → β} {l : List α} {ls : List (List β)} (h : l.map f = ls.flatten) :
    ∃ ws : List (List α), ls = ws.map (List.map f) ∧ l = ws.flatten := by
  induction ls generalizing l with
  | nil => exact ⟨[], rfl, map_eq_nil_iff.mp h⟩
  | cons b ls ih =>
    obtain ⟨w, l', rfl, hw, hl'⟩ := map_eq_append_iff.mp h
    obtain ⟨ws, rfl, rfl⟩ := ih hl'
    exact ⟨w :: ws, by rw [map_cons, hw], rfl⟩

/-- Appended rows lie behind the rows before them, in the groups that follow. -/
lemma exists_pieces {f : α → β} {A B : List (List β)} {b rows : List β}
    {new : List α} (h : (A ++ b :: B).flatten = rows ++ new.map f)
    (hlen : rows.length = A.flatten.length + j) (hj : j < b.length) :
    ∃ (o : List β) (w : List α) (ws : List (List α)), rows = A.flatten ++ o ∧ o.length = j ∧
      b = o ++ w.map f ∧ w ≠ [] ∧ B = ws.map (List.map f) ∧ new = w ++ ws.flatten := by
  rw [flatten_append, flatten_cons] at h
  have hrows : rows = A.flatten ++ b.take j := by
    have := congrArg (List.take rows.length) h
    rw [take_left, hlen, take_append, take_of_length_le (by omega),
      Nat.add_sub_cancel_left, take_append_of_le_length hj.le] at this
    exact this.symm
  have hnew : new.map f = b.drop j ++ B.flatten := by
    have := congrArg (List.drop rows.length) h
    rw [drop_left, hlen, drop_append, drop_of_length_le (by omega),
      Nat.add_sub_cancel_left, drop_append_of_le_length hj.le, nil_append] at this
    exact this.symm
  obtain ⟨w, l, rfl, hw, hl⟩ := map_eq_append_iff.mp hnew
  obtain ⟨ws, rfl, rfl⟩ := map_eq_flatten hl
  refine ⟨b.take j, w, ws, hrows, by rw [length_take]; omega, ?_, ?_, rfl, rfl⟩
  · rw [hw, take_append_drop]
  · rintro rfl
    have := congrArg List.length hw
    rw [map_nil, length_nil, length_drop] at this
    omega

/-- What a checkpoint has left at the front: nothing, or a group on disk with the rows `old`. -/
inductive PersistentRep : ℕ → List (StampedRow m V) → List (ChunkedNodeGroup cap m V) → Prop
  | none : PersistentRep 0 [] []
  | some {start : ℕ} {old : List (StampedRow m V)} {d : ChunkedNodeGroup cap m V}
      (rep : GroupRep start old d) (onDisk : d.residencyState = .onDisk) (ne : old ≠ []) :
      PersistentRep start old [d]

/-- The groups that the appends have filled: all but the last are full. -/
structure MemsRep (P : ℕ → List (StampedRow m V) → ChunkedNodeGroup cap m V → Prop)
    (chunkCap base : ℕ) (mems : List (ChunkedNodeGroup cap m V))
    (rss : List (List (StampedRow m V))) : Prop where
  reps : GroupsRep P base mems rss
  full : ∀ rows ∈ rss.dropLast, rows.length = chunkCap
  le : ∀ rows ∈ rss, rows.length ≤ chunkCap

/-- Full groups and a last one. -/
lemma MemsRep.snoc (hgs : GroupsRep P base gs A) (hA : ∀ a ∈ A, a.length = chunkCap)
    (hg : P (base + A.flatten.length) rows g) (hle : rows.length ≤ chunkCap) :
    MemsRep P chunkCap base (gs ++ [g]) (A ++ [rows]) := by
  refine ⟨hgs.append (.cons hg (.nil _)), fun a ha => ?_, fun a ha => ?_⟩
  · rw [dropLast_concat] at ha
    exact hA a ha
  · rcases mem_append.mp ha with ha | ha
    · exact (hA a ha).le
    · rw [mem_singleton.mp ha]
      exact hle

lemma MemsRep.congr {mems' : List (ChunkedNodeGroup cap m V)} (h : MemsRep P chunkCap base mems rss)
    (h' : GroupsRep Q base mems' rss') (hlen : rss'.map List.length = rss.map List.length) :
    MemsRep Q chunkCap base mems' rss' := by
  refine ⟨h', fun rows hrows => ?_, fun rows hrows => ?_⟩
  · have hmem := mem_map_of_mem (f := List.length) hrows
    rw [map_dropLast, hlen, ← map_dropLast] at hmem
    obtain ⟨rows', hrows', heq⟩ := mem_map.mp hmem
    rw [← heq, h.full rows' hrows']
  · have hmem := mem_map_of_mem (f := List.length) hrows
    rw [hlen] at hmem
    obtain ⟨rows', hrows', heq⟩ := mem_map.mp hmem
    rw [← heq]
    exact h.le rows' hrows'

/-- A node group whose first group holds the rows `old` of a checkpoint and whose other groups
hold the rows `rss`.  Only a node group without rows may have an empty group. -/
structure NodeRep (P : ℕ → List (StampedRow m V) → ChunkedNodeGroup cap m V → Prop)
    (chunkCap start : ℕ) (old : List (StampedRow m V)) (pre mems : List (ChunkedNodeGroup cap m V))
    (rss : List (List (StampedRow m V))) (ng : NodeGroup cap m V) : Prop where
  groups : ng.chunkedGroups = pre ++ mems
  persistent : PersistentRep start old pre
  mems : MemsRep P chunkCap (start + old.length) mems rss
  numRows : ng.numRows = start + old.length + rss.flatten.length
  nonempty : (∀ rows ∈ rss, rows ≠ []) ∨ (pre = [] ∧ rss = [[]])

lemma NodeRep.mono (hPQ : ∀ start rows g, P start rows g → Q start rows g)
    (h : NodeRep P chunkCap start old pre mems rss ng) :
    NodeRep Q chunkCap start old pre mems rss ng :=
  ⟨h.groups, h.persistent, h.mems.congr (h.mems.reps.mono hPQ) rfl, h.numRows, h.nonempty⟩

/-- Where a group lies, and how many rows it has. -/
structure Placed (start : ℕ) (rows : List (StampedRow m V)) (g : ChunkedNodeGroup cap m V) :
    Prop where
  start_eq : g.startRowIdx = start
  numRows_eq : g.numRows = rows.length

lemma GroupRep.placed (h : GroupRep start rows g) : Placed start rows g :=
  ⟨h.start_eq, h.numRows_eq⟩

namespace NodeGroup

variable {gs1 gs2 : List (ChunkedNodeGroup cap m V)}
  {func : ChunkedNodeGroup cap m V → ℕ → ℕ → Option (ChunkedNodeGroup cap m V)}
  {g' : ChunkedNodeGroup cap m V} {id : ℕ} {s : Stamp}

/-- The group of a row is found. -/
lemma find_spec {b : List (StampedRow m V)}
    (hpre : PersistentRep start old pre) (hbase : base = start + old.length)
    (h1 : GroupsRep Placed base gs1 A) (hA : ∀ a ∈ A, a.length = chunkCap)
    (hg : Placed (base + A.flatten.length) b g) (hb : b.length ≤ chunkCap) (hj : j < b.length)
    (hng : ng.chunkedGroups = pre ++ gs1 ++ g :: gs2) :
    ng.findChunkedGroupIdxFromRowIdx chunkCap (base + (A.flatten.length + j))
      = some ((pre ++ gs1).length, j) := by
  have hpos : 0 < chunkCap := by omega
  have hlen := h1.length_eq
  have hdiv : ∀ n, (n * chunkCap + j) / chunkCap = n := Paging.mul_add_div_of_lt (by omega)
  have hmod : ∀ n, (n * chunkCap + j) % chunkCap = j := fun _ => Nat.mul_add_mod_of_lt (by omega)
  rw [show (pre ++ gs1).length = pre.length + A.length by rw [length_append, hlen],
    findChunkedGroupIdxFromRowIdx, hng, append_assoc]
  cases hpre with
  | none =>
    obtain rfl : base = 0 := hbase
    cases h1 with
    | nil =>
      have h0 : g.startRowIdx = 0 := by simpa using hg.start_eq
      have hn := hg.numRows_eq
      simp [h0, hn, hj]
    | @cons _ d rows gs rss head tail =>
      -- the first group is full
      have hfl : rss.flatten.length = rss.length * chunkCap :=
        length_flatten_of_full fun a ha => hA a (by simp [ha])
      have h0 := head.start_eq
      have hn := head.numRows_eq
      have hrow : 0 + ((rows :: rss).flatten.length + j) - 0 - rows.length
          = rss.length * chunkCap + j := by
        rw [flatten_cons, length_append, hfl]
        omega
      simp only [nil_append, cons_append, h0, hn, hrow, hdiv, hmod]
      rw [if_neg (by omega), if_neg (by simp; omega), if_neg (by simp; simp at hlen; omega)]
      simp
  | some rep onDisk ne =>
    have h0 := rep.start_eq
    have hn := rep.numRows_eq
    have hfl := length_flatten_of_full hA
    have hrow : base + (A.flatten.length + j) - start - old.length = A.length * chunkCap + j := by
      rw [hfl]
      omega
    simp only [cons_append, nil_append, h0, hn, hrow, hdiv, hmod]
    rw [if_neg (by omega), if_neg (by omega), if_neg (by simp; omega)]
    simp [add_comm]

/-- There is room in the last group. -/
lemma ensureLastGroup_spec (hchunk : 0 < chunkCap) (hpre : PersistentRep start old pre)
    (h : MemsRep (MemRep chunkCap) chunkCap base mems rss) :
    ∃ gs g A rows, ensureLastGroup chunkCap (base + rss.flatten.length) (pre ++ mems)
        = pre ++ (gs ++ [g]) ∧
      GroupsRep (MemRep chunkCap) base gs A ∧ (∀ a ∈ A, a.length = chunkCap) ∧
      MemRep chunkCap (base + A.flatten.length) rows g ∧ rows.length < chunkCap ∧
      A.flatten ++ rows = rss.flatten := by
  rcases eq_nil_or_concat rss with rfl | ⟨A, rows, rfl⟩
  · -- no group in memory: a group on disk takes no rows
    obtain rfl : mems = [] := eq_nil_of_length_eq_zero h.reps.length_eq
    refine ⟨[], .create chunkCap base, [], [], ?_, .nil _, by simp, ?_, hchunk, rfl⟩
    · cases hpre with
      | none => rfl
      | some rep onDisk ne => simp [ensureLastGroup, isFullOrOnDisk, onDisk]
    · exact create_rep chunkCap base
  -- the last group in memory takes rows unless it is full
  · rw [concat_eq_append] at h ⊢
    obtain ⟨gs, gs2, rfl, h1, h2⟩ := h.reps.split
    cases h2 with
    | @cons _ g _ _ _ hg hnil =>
      cases hnil
      have hA : ∀ a ∈ A, a.length = chunkCap := fun a ha => h.full a (by simp [ha])
      have hlast : (pre ++ (gs ++ [g])).getLast? = some g := by
        rw [← append_assoc, getLast?_concat]
      have hfull : g.isFullOrOnDisk = decide (rows.length = chunkCap) := by
        simp [isFullOrOnDisk, hg.numRows_eq, hg.capacity_eq, hg.inMemory]
      rw [ensureLastGroup, hlast]
      simp only [hfull]
      by_cases hrows : rows.length = chunkCap
      · -- the last group is full
        rw [if_pos (decide_eq_true hrows)]
        refine ⟨gs ++ [g], .create chunkCap (base + (A ++ [rows]).flatten.length), A ++ [rows], [],
          by simp, h1.append (.cons hg (.nil _)), ?_, create_rep chunkCap _,
          hchunk, by simp⟩
        intro a ha
        rcases mem_append.mp ha with ha | ha
        · exact hA a ha
        · rw [mem_singleton.mp ha, hrows]
      · rw [if_neg (by simpa using hrows)]
        have hle := h.le rows (by simp)
        exact ⟨gs, g, A, rows, rfl, h1, hA, hg, by omega, by simp⟩

/-- The loop appends all rows. -/
lemma appendLoop_spec (hcap : 0 < cap) (hchunk : 0 < chunkCap)
    (hpre : PersistentRep start old pre) (hid : StampOk (some (.active id)))
    (rows : List (StampedRow m V)) (new : List (Fin m → V)) :
    ∀ (fuel a : ℕ) (mems : List (ChunkedNodeGroup cap m V)) (rss : List (List (StampedRow m V))),
    new.length ≤ a + fuel → a ≤ new.length →
    MemsRep (MemRep chunkCap) chunkCap base mems rss →
    rss.flatten = rows ++ stamped (.active id) (new.take a) →
    (0 < a → ∀ r ∈ rss, r ≠ []) →
    ∃ mems' rss', appendLoop chunkCap id (fun c => new.map (· c)) 0 new.length
        (base + rows.length) fuel (pre ++ mems) a = some (pre ++ mems') ∧
      MemsRep (MemRep chunkCap) chunkCap base mems' rss' ∧
      rss'.flatten = rows ++ stamped (.active id) new ∧
      (new ≠ [] → ∀ r ∈ rss', r ≠ []) ∧ (new = [] → mems' = mems ∧ rss' = rss) := by
  intro fuel
  induction fuel with
  | zero =>
    intro a mems rss hfuel ha h hrss hne
    have haeq : a = new.length := by omega
    refine ⟨mems, rss, ?_, h, ?_, fun hn => hne ?_, fun _ => ⟨rfl, rfl⟩⟩
    · rw [appendLoop, if_pos (by omega)]
    · rw [hrss, haeq, take_length]
    · rw [haeq]
      exact length_pos_of_ne_nil hn
  | succ fuel ih =>
    intro a mems rss hfuel ha h hrss hne
    by_cases hdone : new.length ≤ a
    · have haeq : a = new.length := by omega
      refine ⟨mems, rss, ?_, h, ?_, fun hn => hne ?_, fun _ => ⟨rfl, rfl⟩⟩
      · rw [appendLoop, if_pos hdone]
      · rw [hrss, haeq, take_length]
      · rw [haeq]
        exact length_pos_of_ne_nil hn
    · obtain ⟨gs, g, A, r, hens, hgs, hA, hg, hr, hflat⟩ := ensureLastGroup_spec hchunk hpre h
      -- the rows that fit into the last group
      set k := min (new.length - a) (chunkCap - r.length) with hk
      set w := (new.drop a).take k with hw
      have hwlen : w.length = k := by
        rw [hw, length_take, length_drop]
        omega
      obtain ⟨g', hrun, hg'⟩ := append_spec hcap hg hid (fun c => new.map (· c)) (0 + a) w
        (fun c => by rw [hwlen, hw, map_take, map_drop, Nat.zero_add])
        (by rw [hwlen]; omega)
      rw [hwlen] at hrun
      have hlen : base + rows.length + a = base + rss.flatten.length := by
        rw [hrss, length_append, length_stamped, length_take, Nat.min_eq_left ha]
        omega
      have hrss' : (A ++ [r ++ stamped (.active id) w]).flatten
          = rows ++ stamped (.active id) (new.take (a + k)) := by
        rw [flatten_append, flatten_singleton, ← append_assoc, hflat, hrss,
          append_assoc, take_add, hw, stamped, stamped, stamped, map_append]
      have hwne : r ++ stamped (.active id) w ≠ [] := by
        intro hnil
        have := congrArg List.length hnil
        rw [length_append, length_stamped, hwlen, length_nil] at this
        omega
      have hne' : ∀ x ∈ A ++ [r ++ stamped (.active id) w], x ≠ [] := by
        intro x hx hnil
        rcases mem_append.mp hx with hx | hx
        · have := hA x hx
          rw [hnil, length_nil] at this
          omega
        · exact hwne ((mem_singleton.mp hx).symm.trans hnil)
      have hstep := MemsRep.snoc hgs hA hg' (by
        rw [length_append, length_stamped, hwlen]
        omega)
      obtain ⟨mems', rss', hloop, hmems', hflat', hne1, -⟩ :=
        ih (a + k) _ _ (by omega) (by omega) hstep hrss' fun _ => hne'
      refine ⟨mems', rss', ?_, hmems', hflat', hne1, fun hn => ?_⟩
      · rw [appendLoop, if_neg hdone]
        have hlast : (pre ++ (gs ++ [g])).getLast? = some g := by
          rw [← append_assoc, getLast?_concat]
        have hdrop : (pre ++ (gs ++ [g])).dropLast ++ [g'] = pre ++ (gs ++ [g']) := by
          rw [← append_assoc, dropLast_concat, append_assoc]
        simp only [hlen, hens, hlast, hg.numRows_eq, bind_eq_bind, bind_some, ← hk, hrun, hdrop]
        exact hloop
      · rw [hn] at hdone
        simp at hdone

/-! ### The undo records -/

@[simp] lemma applyFuncLoop_zero
    (func : ChunkedNodeGroup cap m V → ℕ → ℕ → Option (ChunkedNodeGroup cap m V))
    (gs : List (ChunkedNodeGroup cap m V)) (j : ℕ) : applyFuncLoop func gs j 0 = some gs := by
  cases gs with
  | nil => rfl
  | cons g gs => exact if_pos rfl

/-- The loop handles one group, then the rest. -/
lemma applyFuncLoop_cons {gs' : List (ChunkedNodeGroup cap m V)} {k : ℕ}
    (hk : 0 < k) (hrows : g.numRows = j + k) (hg' : func g j k = some g')
    (hloop : applyFuncLoop func gs 0 n = some gs') :
    applyFuncLoop func (g :: gs) j (k + n) = some (g' :: gs') := by
  have hmin : min (k + n) (g.numRows - j) = k := by omega
  rw [applyFuncLoop, if_neg (by omega)]
  simp [hmin, hg', hloop]

lemma applyFuncToChunkedGroups_zero (ng : NodeGroup cap m V) (chunkCap : ℕ)
    (func : ChunkedNodeGroup cap m V → ℕ → ℕ → Option (ChunkedNodeGroup cap m V)) {startRow : ℕ}
    (hle : startRow ≤ ng.numRows) :
    ng.applyFuncToChunkedGroups chunkCap func startRow 0 = some ng := by
  unfold applyFuncToChunkedGroups
  simp only [guard, if_pos hle, Option.pure_def, bind_eq_bind, bind_some]
  cases ng.findChunkedGroupIdxFromRowIdx chunkCap startRow with
  | none => rfl
  | some p => simp

/-- An undo record changes the rows at the end of one group and all groups behind it. -/
lemma applyFuncToChunkedGroups_spec {gs2' : List (ChunkedNodeGroup cap m V)}
    {o : List (StampedRow m V)} {w : List (Fin m → V)} (hpre : PersistentRep start old pre)
    (hbase : base = start + old.length) (h1 : GroupsRep Placed base gs1 A)
    (hA : ∀ a ∈ A, a.length = chunkCap) (hg : Placed (base + A.flatten.length) (o ++ stamped s w) g)
    (hle : (o ++ stamped s w).length ≤ chunkCap) (hw : w ≠ [])
    (hng : ng.chunkedGroups = pre ++ (gs1 ++ g :: gs2))
    (hrows : base + (A.flatten.length + o.length) ≤ ng.numRows)
    (hg' : func g o.length w.length = some g') (hloop : applyFuncLoop func gs2 0 n = some gs2') :
    ng.applyFuncToChunkedGroups chunkCap func (base + (A.flatten.length + o.length)) (w.length + n)
      = some { ng with chunkedGroups := pre ++ (gs1 ++ g' :: gs2') } := by
  have hwpos : 0 < w.length := length_pos_of_ne_nil hw
  have hsplit : ng.chunkedGroups = pre ++ gs1 ++ g :: gs2 := by rw [hng, append_assoc]
  have hfind := find_spec hpre hbase h1 hA hg hle (j := o.length) (by simp; omega) hsplit
  unfold applyFuncToChunkedGroups
  simp only [guard, if_pos hrows, hfind, Option.pure_def, bind_eq_bind, bind_some]
  rw [hsplit, drop_left, take_left]
  rw [applyFuncLoop_cons hwpos (by rw [hg.numRows_eq, length_append, length_stamped]) hg'
    hloop, bind_some, append_assoc]

/-- Rolling back empties the later groups. -/
lemma applyFuncLoop_rollbackInsert {ws : List (List (Fin m → V))}
    (hne : ∀ w ∈ ws, w ≠ []) (h : GroupsRep Placed start gs (ws.map (stamped s))) :
    ∃ gs', applyFuncLoop ChunkedNodeGroup.rollbackInsert gs 0 ws.flatten.length = some gs' ∧
      ∀ g ∈ gs', g.numRows = 0 := by
  induction ws generalizing start gs with
  | nil =>
    cases h
    exact ⟨[], rfl, by simp⟩
  | cons w ws ih =>
    cases h with
    | @cons _ g _ gs _ head tail =>
      have hwpos := length_pos_of_ne_nil (hne w (by simp))
      obtain ⟨gs', hloop, hgs'⟩ := ih (fun w hw => hne w (by simp [hw])) tail
      refine ⟨{ g.truncate 0 with versionInfo := none } :: gs', ?_, ?_⟩
      · rw [flatten_cons, length_append]
        exact applyFuncLoop_cons hwpos (by simp [head.numRows_eq]) (if_pos rfl) hloop
      · intro x hx
        rcases mem_cons.mp hx with rfl | hx
        · rfl
        · exact hgs' x hx

/-! ### Appends -/

/-- **Appending** to a node group. -/
lemma append_spec (hcap : 0 < cap) (hchunk : 0 < chunkCap)
    (h : NodeRep (MemRep chunkCap) chunkCap start old pre mems rss ng)
    (hid : StampOk (some (.active id))) (new : List (Fin m → V)) :
    ∃ mems' rss' ng', ng.append chunkCap id (fun c => new.map (· c)) 0 new.length = some ng' ∧
      NodeRep (MemRep chunkCap) chunkCap start old pre mems' rss' ng' ∧
      rss'.flatten = rss.flatten ++ stamped (.active id) new ∧
      (new ≠ [] → ∀ rows ∈ rss', rows ≠ []) := by
  -- a node group without groups gets an empty one first
  obtain ⟨mems1, rss1, hgroups, hmems1, hflat1, hne1⟩ : ∃ mems1 rss1,
      (if ng.chunkedGroups = [] then [ChunkedNodeGroup.create chunkCap 0] else ng.chunkedGroups)
        = pre ++ mems1 ∧
      MemsRep (MemRep chunkCap) chunkCap (start + old.length) mems1 rss1 ∧
      rss1.flatten = rss.flatten ∧ ((∀ rows ∈ rss1, rows ≠ []) ∨ (pre = [] ∧ rss1 = [[]])) := by
    split_ifs with hnil
    · obtain ⟨rfl, rfl⟩ := append_eq_nil_iff.mp (h.groups.symm.trans hnil)
      obtain rfl : rss = [] := eq_nil_of_length_eq_zero h.mems.reps.length_eq.symm
      cases h.persistent
      exact ⟨[.create chunkCap 0], [[]], rfl, MemsRep.snoc (.nil _) (by simp)
        (create_rep chunkCap 0) (zero_le _), rfl, .inr ⟨rfl, rfl⟩⟩
    · exact ⟨mems, rss, h.groups, h.mems, rfl, h.nonempty⟩
  obtain ⟨mems', rss', hloop, hmems', hflat', hne', hsame⟩ := appendLoop_spec hcap hchunk
    h.persistent hid rss.flatten new new.length 0 mems1 rss1 (by omega) (zero_le _) hmems1
    (by simp [hflat1, stamped]) (by simp)
  refine ⟨mems', rss', ⟨pre ++ mems', ng.numRows + new.length⟩, ?_,
    ⟨rfl, h.persistent, hmems', ?_, ?_⟩, hflat', hne'⟩
  · rw [append, hgroups, h.numRows]
    simp only [hloop]
    rfl
  · rw [hflat', length_append, length_stamped]
    show ng.numRows + new.length = _
    rw [h.numRows]
    omega
  · by_cases hn : new = []
    · rw [(hsame hn).2]
      exact hne1
    · exact .inl (hne' hn)

/-- After the append of a batch that is not empty, the rows of the batch lie at the end of one
group and in all groups behind it. -/
lemma exists_appended
    {new : List (Fin m → V)} (hnew : new ≠ []) (h : NodeRep P chunkCap start old pre mems rss ng)
    (hflat : rss.flatten = rows ++ stamped (.active id) new) (hne : ∀ r ∈ rss, r ≠ []) :
    ∃ (gs1 : List (ChunkedNodeGroup cap m V)) (g : ChunkedNodeGroup cap m V)
      (gs2 : List (ChunkedNodeGroup cap m V)) (A : List (List (StampedRow m V)))
      (o : List (StampedRow m V)) (w : List (Fin m → V)) (ws : List (List (Fin m → V))),
      mems = gs1 ++ g :: gs2 ∧ rows = A.flatten ++ o ∧ new = w ++ ws.flatten ∧
      rss = A ++ (o ++ stamped (.active id) w) :: ws.map (stamped (.active id)) ∧
      (∀ a ∈ A, a.length = chunkCap) ∧ w ≠ [] ∧ (∀ w ∈ ws, w ≠ []) ∧
      GroupsRep P (start + old.length) gs1 A ∧
      P (start + old.length + A.flatten.length) (o ++ stamped (.active id) w) g ∧
      GroupsRep P (start + old.length + A.flatten.length
        + (o ++ stamped (.active id) w).length) gs2 (ws.map (stamped (.active id))) := by
  have hlt : rows.length < rss.flatten.length := by
    rw [hflat, length_append, length_stamped]
    have := length_pos_of_ne_nil hnew
    omega
  obtain ⟨A, b, B, j, rfl, hA, hj, hq⟩ := exists_split_of_full h.mems.full hlt
  obtain ⟨o, w, ws, rfl, -, rfl, hw, rfl, rfl⟩ := exists_pieces hflat hq hj
  obtain ⟨gs1, gs, rfl, h1, h2⟩ := h.mems.reps.split
  cases h2 with
  | @cons _ g _ gs2 _ hg h2 =>
    refine ⟨gs1, g, gs2, A, o, w, ws, rfl, rfl, rfl, rfl, hA, hw, ?_, h1, hg, h2⟩
    intro w hw hnil
    exact hne (stamped (.active id) w)
      (mem_append.mpr (.inr (mem_cons_of_mem _ (mem_map_of_mem hw))))
      (by rw [hnil]; rfl)

lemma numRows_ne_zero (h : GroupsRep Placed base gs rss) (hne : ∀ rows ∈ rss, rows ≠ []) :
    ∀ g ∈ gs, g.numRows ≠ 0 := by
  induction h with
  | nil => simp
  | @cons _ g rows _ _ head _ ih =>
    intro x hx
    rcases mem_cons.mp hx with rfl | hx
    · rw [head.numRows_eq]
      exact fun h0 => hne rows (by simp) (eq_nil_of_length_eq_zero h0)
    · exact ih (fun r hr => hne r (by simp [hr])) x hx

lemma persistent_numRows_ne_zero (h : PersistentRep start old pre) : ∀ g ∈ pre, g.numRows ≠ 0 := by
  cases h with
  | none => simp
  | some rep onDisk ne =>
    intro g hg
    rw [mem_singleton.mp hg, rep.numRows_eq]
    exact fun h0 => ne (eq_nil_of_length_eq_zero h0)

/-- Empty groups at the end are removed. -/
lemma rollbackInsert_groups (gs empties : List (ChunkedNodeGroup cap m V))
    (hgs : ∀ g ∈ gs, g.numRows ≠ 0) (hempties : ∀ g ∈ empties, g.numRows = 0)
    (hng : ng.chunkedGroups = gs ++ empties) (startRow : ℕ) :
    ng.rollbackInsert startRow = ⟨gs, startRow⟩ := by
  rw [rollbackInsert, hng]
  clear hng
  congr 1
  induction empties using List.reverseRecOn with
  | nil =>
    rw [append_nil, rdropWhile_eq_self_iff]
    intro hne
    simpa using hgs _ (getLast_mem hne)
  | append_singleton es e ih =>
    rw [← append_assoc, rdropWhile_concat_pos _ _ _ (by
      simpa using hempties e (by simp))]
    exact ih fun g hg => hempties g (by simp [hg])

/-! ### Reading a node group -/

section Read

variable {s : ℕ} {T : Transaction}

lemma scan_group (hcap : 0 < cap) {idx next : ℕ} {g0 : ChunkedNodeGroup cap m V}
    (hg0 : ng.chunkedGroups[idx]? = some g0) {idx' : ℕ} (hg : ng.chunkedGroups[idx']? = some g)
    (hidx : (if g0.numRows + g0.startRowIdx ≤ next then idx + 1 else idx) = idx')
    (hrep : GroupRep s rows g) (hok : StampsOk rows) (hnext : next = s + q) (hq : q < rows.length)
    (sv : SelectionVector) :
    ∃ sv', ng.scan T ⟨idx, next, sv⟩
      = some (⟨idx', s + (q + min (rows.length - q) cap), sv'⟩,
          some (visibleRows T (s + q) ((rows.drop q).take (min (rows.length - q) cap)))) := by
  obtain ⟨sv', hscan⟩ := ChunkedNodeGroup.scan_spec hcap hok hrep T
    q (min (rows.length - q) cap) (by omega) (by omega) sv
  have hlt : idx' < ng.chunkedGroups.length := (List.getElem?_eq_some_iff.mp hg).1
  have hstart := hrep.start_eq
  have hsub : next - g.startRowIdx = q := by omega
  refine ⟨sv', ?_⟩
  unfold scan
  simp only [hg0, bind_eq_bind, bind_some, hidx, if_neg (Nat.not_le.mpr hlt), hg,
    guard, if_pos (show g.startRowIdx ≤ next by omega), hsub, hrep.numRows_eq, hscan,
    Option.pure_def]
  rw [hnext, add_assoc]

/-- The rows of a scan of part of a group, and the rows that follow. -/
lemma visibleRows_take_append (rows rest : List (StampedRow m V)) (hle : q + n ≤ rows.length) :
    visibleRows T (s + q) ((rows.drop q).take n)
        ++ visibleRows T (s + (q + n)) (rows.drop (q + n) ++ rest)
      = visibleRows T (s + q) (rows.drop q ++ rest) := by
  have hlen : ((rows.drop q).take n).length = n := by
    rw [length_take, length_drop]
    omega
  have hsplit : rows.drop q ++ rest = (rows.drop q).take n ++ (rows.drop (q + n) ++ rest) := by
    rw [← append_assoc, ← drop_drop, take_append_drop]
  rw [hsplit, visibleRows_append T (s + q) ((rows.drop q).take n), hlen, add_assoc]

/-- **The scans of a node group.** From row `q` of a group on they put out the visible rows of the
group and of the groups behind it. -/
theorem scanLoop_spec (hcap : 0 < cap) (fuel : ℕ) :
    ∀ (gs1 : List (ChunkedNodeGroup cap m V)) (g : ChunkedNodeGroup cap m V)
      (gs2 : List (ChunkedNodeGroup cap m V)) (s q : ℕ) (rows : List (StampedRow m V))
      (rss : List (List (StampedRow m V))) (sv : SelectionVector),
    ng.chunkedGroups = gs1 ++ g :: gs2 → GroupRep s rows g →
    GroupsRep GroupRep (s + rows.length) gs2 rss → StampsOk rows →
    StampsOk rss.flatten → (∀ r ∈ rss, r ≠ []) → q ≤ rows.length →
    rows.length - q + rss.flatten.length < fuel →
    ng.scanLoop T fuel ⟨gs1.length, s + q, sv⟩
      = some (visibleRows T (s + q) (rows.drop q ++ rss.flatten)) := by
  induction fuel with
  | zero => intros; omega
  | succ fuel ih =>
    intro gs1 g gs2 s q rows rss sv hng hg hgs2 hrows hrss hne hq hfuel
    have hget : ng.chunkedGroups[gs1.length]? = some g := by
      rw [hng, getElem?_append_right le_rfl, sub_self]
      rfl
    have hend : g.numRows + g.startRowIdx = s + rows.length := by
      rw [hg.numRows_eq, hg.start_eq, add_comm]
    unfold scanLoop
    by_cases hlt : q < rows.length
    · obtain ⟨sv', hscan⟩ :=
        scan_group (T := T) hcap hget hget (if_neg (by omega)) hg hrows rfl hlt sv
      have hrest := ih gs1 g gs2 s (q + min (rows.length - q) cap) rows rss sv' hng hg hgs2 hrows
        hrss hne (by omega) (by omega)
      simp only [hscan, hrest, bind_eq_bind, bind_some, Option.pure_def]
      rw [visibleRows_take_append rows rss.flatten (by omega)]
    · obtain rfl : q = rows.length := by omega
      rw [drop_length, nil_append]
      cases hgs2 with
      | nil =>
        -- the last group is done
        have hscan : ng.scan T ⟨gs1.length, s + rows.length, sv⟩
            = some (⟨gs1.length + 1, s + rows.length, sv⟩, none) := by
          unfold scan
          have hlen : ng.chunkedGroups.length ≤ gs1.length + 1 := by rw [hng]; simp
          simp [hget, hend.le, hlen]
        simp only [hscan, bind_eq_bind, bind_some, Option.pure_def]
        rfl
      | @cons _ g' rows' gs2 rss head tail =>
        have hng' : ng.chunkedGroups = (gs1 ++ [g]) ++ g' :: gs2 := by rw [hng]; simp
        have hidx : (gs1 ++ [g]).length = gs1.length + 1 := by simp
        have hget' : ng.chunkedGroups[gs1.length + 1]? = some g' := by
          rw [hng', getElem?_append_right hidx.le, hidx, sub_self]
          rfl
        have hpos : 0 < rows'.length := length_pos_of_ne_nil (hne rows' (by simp))
        have hrows' : StampsOk rows' := fun row hrow => hrss row (by simp [hrow])
        obtain ⟨sv', hscan⟩ := scan_group (T := T) hcap hget hget' (if_pos hend.le) head hrows'
          (add_zero _).symm hpos sv
        rw [flatten_cons, length_append] at hfuel
        have hrest := ih (gs1 ++ [g]) g' gs2 (s + rows.length) (0 + min (rows'.length - 0) cap)
          rows' rss sv' hng' head tail hrows'
          (fun row hrow => hrss row (by rw [flatten_cons]; simp [hrow]))
          (fun r hr => hne r (by simp [hr])) (by omega) (by omega)
        rw [hidx] at hrest
        simp only [hscan, hrest, bind_eq_bind, bind_some, Option.pure_def]
        rw [visibleRows_take_append rows' rss.flatten (by omega), add_zero, drop_zero, flatten_cons]

lemma NodeRep.all_groups (h : NodeRep GroupRep chunkCap start old pre mems rss ng)
    (hne : old ++ rss.flatten ≠ []) :
    ∃ rss', GroupsRep GroupRep start ng.chunkedGroups rss' ∧ rss'.flatten = old ++ rss.flatten ∧
      ∀ rows ∈ rss', rows ≠ [] := by
  have hrss : ∀ rows ∈ rss, rows ≠ [] := by
    rcases h.nonempty with hrss | ⟨rfl, rfl⟩
    · exact hrss
    · cases h.persistent
      exact absurd rfl hne
  rw [h.groups]
  have hmems := h.mems.reps
  cases h.persistent with
  | none => exact ⟨rss, hmems, rfl, hrss⟩
  | some rep onDisk ne =>
    refine ⟨old :: rss, .cons rep hmems, rfl, fun rows hrows => ?_⟩
    rcases mem_cons.mp hrows with rfl | hrows
    · exact ne
    · exact hrss rows hrows

/-- **Scanning** all rows of a node group. -/
lemma scanAll_spec (hcap : 0 < cap) (h : NodeRep GroupRep chunkCap start old pre mems rss ng)
    (hok : StampsOk (old ++ rss.flatten)) (hne : old ++ rss.flatten ≠ [])
    {fuel : ℕ} (hfuel : (old ++ rss.flatten).length < fuel) (sv : SelectionVector) :
    ng.scanAll T sv fuel = some (visibleRows T start (old ++ rss.flatten)) := by
  obtain ⟨rss', hreps, hflat, hne'⟩ := NodeRep.all_groups h hne
  rw [← hflat] at hok hfuel hne ⊢
  unfold scanAll
  generalize hgs : ng.chunkedGroups = gs at hreps
  cases hreps with
  | nil => exact absurd rfl hne
  | @cons _ g rows gs rss' head tail =>
    rw [flatten_cons, length_append] at hfuel
    have hloop := scanLoop_spec (T := T) hcap fuel [] g gs start 0 rows rss' sv hgs head tail
      (fun row hrow => hok row (by simp [hrow]))
      (fun row hrow => hok row (by rw [flatten_cons]; simp [hrow]))
      (fun r hr => hne' r (by simp [hr])) (zero_le _) (by omega)
    rw [drop_zero, add_zero] at hloop
    simp only [head?_cons, bind_eq_bind, bind_some, head.start_eq, flatten_cons]
    exact hloop

/-- The lookup of a row in the group that `findChunkedGroupIdxFromRowIdx` finds. -/
lemma lookup_of_find (hcap : 0 < cap) (hng : ng.chunkedGroups = gs1 ++ g :: gs2)
    (hg : GroupRep s rows g) (hok : StampsOk rows) (hj : j < rows.length)
    (hfind : ng.findChunkedGroupIdxFromRowIdx chunkCap (s + j) = some (gs1.length, j)) :
    ng.lookup chunkCap T (s + j)
      = some (if rows[j].1.visibleTo T.id T.startTS then
          some (s + j, fun c => some (rows[j].2 c)) else none) := by
  have hget : ng.chunkedGroups[gs1.length]? = some g := by
    rw [hng, getElem?_append_right le_rfl, sub_self]
    rfl
  unfold lookup
  simp [hfind, hget, hg.start_eq, ChunkedNodeGroup.lookup_spec hcap hok hg T hj, rowAt_eq hg hj]

/-- **Looking up** a row of a node group. -/
lemma lookup_spec (hcap : 0 < cap) (h : NodeRep GroupRep chunkCap start old pre mems rss ng)
    (hok : StampsOk (old ++ rss.flatten)) {i : ℕ} (hi : i < (old ++ rss.flatten).length) :
    ng.lookup chunkCap T (start + i)
      = some (if ((old ++ rss.flatten)[i]).1.visibleTo T.id T.startTS then
          some (start + i, fun c => some ((old ++ rss.flatten)[i].2 c)) else none) := by
  by_cases hold : i < old.length
  · -- a row that the checkpoint has left
    have hpers := h.persistent
    cases hpers with
    | none => simp at hold
    | @some _ _ d rep onDisk ne =>
      have hng : ng.chunkedGroups = [] ++ d :: mems := h.groups
      have hfind : ng.findChunkedGroupIdxFromRowIdx chunkCap (start + i) = some (0, i) := by
        unfold findChunkedGroupIdxFromRowIdx
        simp [hng, rep.start_eq, rep.numRows_eq, hold]
      have hlook := lookup_of_find (T := T) hcap hng rep
        (fun row hrow => hok row (by simp [hrow])) hold hfind
      rw [hlook]
      simp only [getElem_append_left hold]
  -- a row of a group in memory
  · have hq : i - old.length < rss.flatten.length := by
      rw [length_append] at hi
      omega
    obtain ⟨A, b, B, j, rfl, hA, hj, hqj⟩ := exists_split_of_full h.mems.full hq
    obtain ⟨gs1, gs, rfl, h1, h2⟩ := h.mems.reps.split
    cases h2 with
    | @cons _ g _ gs2 _ hg h2 =>
      have hng : ng.chunkedGroups = pre ++ gs1 ++ g :: gs2 := by rw [h.groups, append_assoc]
      have hfind := find_spec h.persistent rfl (h1.mono fun _ _ _ hm => hm.placed) hA hg.placed
        (h.mems.le b (by simp)) hj hng
      rw [← add_assoc] at hfind
      have hlook := lookup_of_find (T := T) hcap hng hg
        (fun row hrow => hok row (by simp [hrow])) hj hfind
      have hrow : start + old.length + A.flatten.length + j = start + i := by omega
      rw [hrow] at hlook
      rw [hlook]
      have hget : (old ++ (A ++ b :: B).flatten)[i]? = some b[j] := by
        rw [getElem?_append_right (by omega), hqj, flatten_append,
          getElem?_append_right (by omega), Nat.add_sub_cancel_left, flatten_cons,
          getElem?_append_left hj, getElem?_eq_getElem hj]
      rw [getElem?_eq_getElem hi, Option.some.injEq] at hget
      rw [hget]

end Read

/-! ### A node group to start from -/

/-- The first row of a node group that starts from `p`. -/
def firstRow (p : Option (PersistentGroup m V)) : ℕ := p.elim 0 (·.startRowIdx)

/-- A node group to start from: new, or with the rows of a checkpoint. -/
lemma init_rep (chunkCap : ℕ) (p : Option (PersistentGroup m V)) :
    ∃ pre, NodeRep (MemRep chunkCap) chunkCap (firstRow p)
      (stamped (.committed 0) (p.elim [] (·.rows))) pre [] []
      (init p : NodeGroup cap m V) := by
  cases p with
  | none => exact ⟨[], rfl, .none, ⟨.nil _, by simp, by simp⟩, rfl, .inl (by simp)⟩
  | some p =>
    refine ⟨(ofPersistent p.startRowIdx p.capacity p.rows.length
      fun c => p.rows.map (· c)).chunkedGroups, (append_nil _).symm,
      .some ⟨rfl, (length_stamped ..).symm, fun c => ?_, ?_⟩ rfl ?_,
      ⟨.nil _, by simp, by simp⟩, ?_, .inl (by simp)⟩
    · rw [stamped, map_map]
      exact take_of_length_le (by simp)
    · intro row hrow
      obtain ⟨v, -, rfl⟩ := mem_map.mp hrow
      rfl
    · intro hnil
      exact p.rows_ne (map_eq_nil_iff.mp hnil)
    · simp [init, ofPersistent, firstRow]

/-- A reader that starts after every commit below. -/
def reader : Transaction :=
  ⟨startTransactionID + 9, 5, by decide, by decide, by decide⟩

end NodeGroup

end Ladybug
