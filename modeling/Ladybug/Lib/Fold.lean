import Mathlib.Data.List.Basic

/-!
# Loops and runs as `List.foldlM` in `Option`

A loop whose body may fail, and a run of a machine whose steps may be disabled, are both
`List.foldlM step s as : Option σ`. This module holds the rules the correctness proofs use:

* `foldlM_guarded_invariant`: a property that every allowed step keeps holds at the end of a run of
  allowed steps;
* `foldlM_progress`: a property that enables the next step and is kept by it makes the whole
  loop succeed;
* `foldlM_simulation`, `foldlM_guarded_simulation`: the runs of one machine are runs of another.
-/

namespace Fold

open List

variable {σ α τ : Type*} {s s' : σ} {as bs : List α} {allowed : σ → α → Prop} {t : τ}

lemma foldlM_cons_some {a : α} :
    (a :: as).foldlM step s = some s' ↔ ∃ m, step s a = some m ∧ as.foldlM step m = some s' := by
  simp [foldlM_cons, Option.bind_eq_some_iff]

lemma foldlM_append_some :
    (as ++ bs).foldlM step s = some s' ↔
      ∃ m, as.foldlM step s = some m ∧ bs.foldlM step m = some s' := by
  simp [foldlM_append, Option.bind_eq_some_iff]

/-- **Progress rule.** `P done s` speaks of the part of the loop that is done and the state after
it.  When it enables the next step and is kept by it, the loop runs to its end. -/
theorem foldlM_progress (step : σ → α → Option σ) (P : List α → σ → Prop)
    (hstep : ∀ done a rest s, done ++ a :: rest = as → P done s →
      ∃ s', step s a = some s' ∧ P (done ++ [a]) s') (hs : P [] s) :
    ∃ s', as.foldlM step s = some s' ∧ P as s' := by
  suffices h : ∀ (rest done : List α) (s : σ), done ++ rest = as → P done s →
      ∃ s', rest.foldlM step s = some s' ∧ P as s' from h as [] s rfl hs
  intro rest
  induction rest with
  | nil =>
    intro done s hsplit h
    rw [append_nil] at hsplit
    exact ⟨s, rfl, hsplit ▸ h⟩
  | cons a rest ih =>
    intro done s hsplit h
    obtain ⟨m, hm, hP⟩ := hstep done a rest s hsplit h
    obtain ⟨s', hs', hP'⟩ := ih (done ++ [a]) m (by simpa using hsplit) hP
    exact ⟨s', foldlM_cons_some.mpr ⟨m, hm, hs'⟩, hP'⟩

/-- Every action of the run is allowed in the state in which it is made. -/
def Guarded (step : σ → α → Option σ) (allowed : σ → α → Prop) : σ → List α → Prop
  | _, [] => True
  | s, a :: as => allowed s a ∧ ∀ s', step s a = some s' → Guarded step allowed s' as

lemma Guarded.of_forall (h : ∀ a ∈ as, ∀ s, allowed s a) (s : σ) : Guarded step allowed s as := by
  induction as generalizing s with
  | nil => trivial
  | cons a as ih =>
    exact ⟨h a mem_cons_self s, fun s' _ => ih (fun b hb => h b (mem_cons_of_mem a hb)) s'⟩

lemma Guarded.and_forall {Q : α → Prop} (h : Guarded step allowed s as) (hQ : ∀ a ∈ as, Q a) :
    Guarded step (fun s a => allowed s a ∧ Q a) s as := by
  induction as generalizing s with
  | nil => trivial
  | cons a as ih =>
    exact ⟨⟨h.1, hQ a mem_cons_self⟩,
      fun s' hs' => ih (h.2 s' hs') fun b hb => hQ b (mem_cons_of_mem a hb)⟩

lemma Guarded.of_append (h : Guarded step allowed s (as ++ bs)) :
    Guarded step allowed s as ∧ ∀ s', as.foldlM step s = some s' → Guarded step allowed s' bs := by
  induction as generalizing s with
  | nil =>
    refine ⟨trivial, fun s' hs' => ?_⟩
    obtain rfl := Option.some.inj hs'
    exact h
  | cons a as ih =>
    refine ⟨⟨h.1, fun m hm => (ih (h.2 m hm)).1⟩, fun s' hs' => ?_⟩
    obtain ⟨m, hm, hrest⟩ := foldlM_cons_some.mp hs'
    exact (ih (h.2 m hm)).2 s' hrest

/-- Whether a run is guarded is found by running it. -/
instance decidableGuarded (step : σ → α → Option σ) (allowed : σ → α → Prop)
    [∀ s a, Decidable (allowed s a)] :
    ∀ (s : σ) (as : List α), Decidable (Guarded step allowed s as)
  | _, [] => .isTrue trivial
  | s, a :: as =>
    haveI : Decidable (∀ s', step s a = some s' → Guarded step allowed s' as) :=
      match step s a with
      | none => .isTrue fun _ hs' => absurd hs' nofun
      | some m =>
        match decidableGuarded step allowed m as with
        | .isTrue hm => .isTrue fun _ hs' => Option.some.inj hs' ▸ hm
        | .isFalse hm => .isFalse fun hall => hm (hall m rfl)
    inferInstanceAs (Decidable (allowed s a ∧ ∀ s', step s a = some s' →
      Guarded step allowed s' as))

/-- **Invariant rule.** What every allowed step keeps holds at the end of a run of allowed steps. -/
theorem foldlM_guarded_invariant {P : σ → Prop}
    (hstep : ∀ s a s', P s → allowed s a → step s a = some s' → P s')
    (hs : P s) (has : Guarded step allowed s as) (hrun : as.foldlM step s = some s') : P s' := by
  induction as generalizing s with
  | nil =>
    rw [foldlM_nil] at hrun
    exact Option.some.inj hrun ▸ hs
  | cons a as ih =>
    obtain ⟨m, hm, hrest⟩ := foldlM_cons_some.mp hrun
    exact ih (hstep s a m hs has.1 hm) (has.2 m hm) hrest

section

variable (step : σ → α → Option σ)

/-- **Guarded runs.** When `P` enables every allowed step and is kept by it, a run of allowed steps
ends, in a state with `P`. -/
theorem foldlM_guarded (allowed : σ → α → Prop) (P : σ → Prop)
    (hstep : ∀ s a, P s → allowed s a → ∃ s', step s a = some s' ∧ P s') (hs : P s)
    (has : Guarded step allowed s as) :
    ∃ s', as.foldlM step s = some s' ∧ P s' := by
  induction as generalizing s with
  | nil => exact ⟨s, rfl, hs⟩
  | cons a as ih =>
    obtain ⟨ha, hrest⟩ := has
    obtain ⟨m, hm, hP⟩ := hstep s a hs ha
    obtain ⟨s', hs', hP'⟩ := ih hP (hrest m hm)
    exact ⟨s', foldlM_cons_some.mpr ⟨m, hm, hs'⟩, hP'⟩

/-- **Guarded simulation.** When every allowed step of one machine from related states is matched by
a step of the other, so is every run of allowed steps. -/
theorem foldlM_guarded_simulation (allowed : σ → α → Prop)
    (step' : τ → α → Option τ) (R : σ → τ → Prop)
    (hstep : ∀ s t a s', R s t → allowed s a → step s a = some s' →
      ∃ t', step' t a = some t' ∧ R s' t') (hR : R s t) (has : Guarded step allowed s as)
    (hrun : as.foldlM step s = some s') : ∃ t', as.foldlM step' t = some t' ∧ R s' t' := by
  induction as generalizing s t with
  | nil =>
    obtain rfl := Option.some.inj hrun
    exact ⟨t, rfl, hR⟩
  | cons a as ih =>
    obtain ⟨m, hm, hrest⟩ := foldlM_cons_some.mp hrun
    obtain ⟨t1, ht1, hR1⟩ := hstep s t a m hR has.1 hm
    obtain ⟨t', ht', hR'⟩ := ih hR1 (has.2 m hm) hrest
    exact ⟨t', foldlM_cons_some.mpr ⟨t1, ht1, ht'⟩, hR'⟩

/-- **Simulation rule.** When every step of one machine from related states is matched by a step
of the other, so is every run. -/
theorem foldlM_simulation (step' : τ → α → Option τ) (R : σ → τ → Prop)
    (hstep : ∀ s t a s', R s t → step s a = some s' → ∃ t', step' t a = some t' ∧ R s' t')
    (hR : R s t) (hrun : as.foldlM step s = some s') :
    ∃ t', as.foldlM step' t = some t' ∧ R s' t' :=
  foldlM_guarded_simulation step (fun _ _ => True) step' R
    (fun s t a s' hR _ => hstep s t a s' hR) hR (.of_forall (fun _ _ _ => trivial) s) hrun

end

end Fold
