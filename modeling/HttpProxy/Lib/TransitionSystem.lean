import Mathlib.Data.Nat.Notation
import Mathlib.Logic.Relation

/-!
# Labelled transition systems

Reachability, finite runs and the induction rule for invariants.  A guard cuts a
system down to the runs whose steps all meet it, so that a property which needs a
condition on the steps can still be stated over reachable states.
-/

namespace Transition

/-- A system is given by its initial states and its labelled steps. -/
structure System (σ ι : Type*) where
  Init : σ → Prop
  Step : σ → ι → σ → Prop

namespace System

variable {σ ι : Type*} {S : System σ ι}

/-- The states at the end of some finite run. -/
inductive Reachable (S : System σ ι) : σ → Prop
  | init {s : σ} (h : S.Init s) : Reachable S s
  | step {s s' : σ} {a : ι} (hs : Reachable S s) (h : S.Step s a s') : Reachable S s'

/-- The run that takes the listed labels one after the other. -/
inductive Run (S : System σ ι) : σ → List ι → σ → Prop
  | nil (s : σ) : Run S s [] s
  | cons {s u t : σ} {a : ι} {as : List ι} (h : S.Step s a u) (hs : Run S u as t) :
      Run S s (a :: as) t

/-- The runs all of whose steps meet the guard. -/
def guarded (S : System σ ι) (guard : σ → ι → Prop) : System σ ι where
  Init := S.Init
  Step s a s' := guard s a ∧ S.Step s a s'

/-- An inductive invariant relative to an already known one. -/
structure Preserves (S : System σ ι) (K I : σ → Prop) : Prop where
  init : ∀ s, S.Init s → I s
  step : ∀ s a s', K s → I s → S.Step s a s' → I s'

theorem Preserves.reachable {K I : σ → Prop} (h : S.Preserves K I)
    (hK : ∀ s, S.Reachable s → K s) {s : σ} (hs : S.Reachable s) : I s := by
  induction hs with
  | init hi => exact h.init _ hi
  | step hr ht ih => exact h.step _ _ _ (hK _ hr) ih ht

/-- The plain induction rule: nothing is known beforehand. -/
theorem reachable_induction {I : σ → Prop} (hinit : ∀ s, S.Init s → I s)
    (hstep : ∀ s a s', I s → S.Step s a s' → I s') {s : σ} (hs : S.Reachable s) : I s :=
  Preserves.reachable (K := fun _ ↦ True) ⟨hinit, fun s a s' _ ↦ hstep s a s'⟩
    (fun _ _ ↦ trivial) hs

theorem Reachable.step_guarded {guard : σ → ι → Prop} {s s' : σ} {a : ι}
    (hs : (S.guarded guard).Reachable s) (h : S.Step s a s') (hguard : guard s a) :
    (S.guarded guard).Reachable s' :=
  hs.step ⟨hguard, h⟩

theorem Reachable.of_guarded {guard : σ → ι → Prop} {s : σ} (hs : (S.guarded guard).Reachable s) :
    S.Reachable s := by
  induction hs with
  | init h => exact .init h
  | step _ h ih => exact ih.step h.2

theorem Reachable.guarded_mono {guard guard' : σ → ι → Prop} {s : σ}
    (hs : (S.guarded guard).Reachable s) (h : ∀ s a, guard s a → guard' s a) :
    (S.guarded guard').Reachable s := by
  induction hs with
  | init hi => exact .init hi
  | step _ hstep ih => exact ih.step ⟨h _ _ hstep.1, hstep.2⟩

/-! ## Progress -/

/-- If every step lowers a measure, then a run is no longer than it was high. -/
theorem Run.length_add_le {μ : σ → ℕ} (h : ∀ s a s', S.Step s a s' → μ s' < μ s) {s t : σ}
    {as : List ι} (hrun : S.Run s as t) : as.length + μ t ≤ μ s := by
  induction hrun with
  | nil s => simp
  | cons hstep _ ih =>
      have hlt := h _ _ _ hstep
      rw [List.length_cons]
      omega

/-- A system that can always go on until it is done, and whose steps lower a measure, can get
done. -/
theorem exists_run_done {I Done : σ → Prop} {μ : σ → ℕ}
    (hμ : ∀ s a s', S.Step s a s' → μ s' < μ s)
    (hI : ∀ s a s', I s → S.Step s a s' → I s')
    (hprogress : ∀ s, I s → ¬Done s → ∃ a s', S.Step s a s') {s : σ} (hs : I s) :
    ∃ as t, S.Run s as t ∧ I t ∧ Done t := by
  induction hn : μ s using Nat.strongRecOn generalizing s with
  | ind n ih =>
      by_cases hdone : Done s
      · exact ⟨[], s, .nil s, hs, hdone⟩
      · obtain ⟨a, s', hstep⟩ := hprogress s hs hdone
        obtain ⟨as, t, hrun, ht⟩ :=
          ih (μ s') (hn ▸ hμ s a s' hstep) (hI s a s' hs hstep) rfl
        exact ⟨a :: as, t, .cons hstep hrun, ht⟩

/-! ## Refinement -/

/-- Each step of the concrete system is a step of the abstract one, or leaves the abstract state
as it is.  What is known of the reachable states of either system may be used. -/
structure Refines {τ κ : Type*} (C : System σ ι) (A : System τ κ) (R : σ → τ → Prop) : Prop where
  init : ∀ s, C.Init s → ∃ t, A.Init t ∧ R s t
  step : ∀ s t a s', C.Reachable s → A.Reachable t → R s t → C.Step s a s' →
    ∃ t', (t' = t ∨ ∃ b, A.Step t b t') ∧ R s' t'

theorem Refines.reachable {τ κ : Type*} {C : System σ ι} {A : System τ κ} {R : σ → τ → Prop}
    (h : C.Refines A R) {s : σ} (hs : C.Reachable s) : ∃ t, A.Reachable t ∧ R s t := by
  induction hs with
  | init hi =>
      obtain ⟨t, ht, hR⟩ := h.init _ hi
      exact ⟨t, .init ht, hR⟩
  | step hs hstep ih =>
      obtain ⟨t, ht, hR⟩ := ih
      obtain ⟨t', rfl | ⟨b, hb⟩, hR'⟩ := h.step _ t _ _ hs ht hR hstep
      · exact ⟨t', ht, hR'⟩
      · exact ⟨t', ht.step hb, hR'⟩

/-! ## History variables -/

/-- The system with a log that each step extends. -/
def logged {ε : Type*} (S : System σ ι) (emit : σ → ι → σ → List ε) : System (σ × List ε) ι where
  Init p := S.Init p.1 ∧ p.2 = []
  Step p a q := S.Step p.1 a q.1 ∧ q.2 = p.2 ++ emit p.1 a q.1

theorem Reachable.of_logged {ε : Type*} {emit : σ → ι → σ → List ε} {p : σ × List ε}
    (h : (S.logged emit).Reachable p) : S.Reachable p.1 := by
  induction h with
  | init h => exact .init h.1
  | step _ h ih => exact ih.step h.1

theorem Reachable.log {ε : Type*} {emit : σ → ι → σ → List ε} {s s' : σ} {log : List ε} {a : ι}
    (h : (S.logged emit).Reachable (s, log)) (hstep : S.Step s a s') :
    (S.logged emit).Reachable (s', log ++ emit s a s') :=
  h.step ⟨hstep, rfl⟩

end System

section Log

variable {α : Type*} {l before after mid since : List α} {a b c : α}

/-- A place in a list that was extended by one entry is an old one or the new end. -/
theorem split_concat (h : l ++ [a] = before ++ b :: after) :
    (∃ after', l = before ++ b :: after') ∨ before = l ∧ b = a := by
  rcases List.eq_nil_or_concat after with rfl | ⟨after', c, rfl⟩
  · obtain ⟨rfl, hab⟩ := List.append_inj' h rfl
    exact .inr ⟨rfl, (List.singleton_inj.mp hab).symm⟩
  · refine .inl ⟨after', ?_⟩
    rw [List.concat_eq_append, ← List.cons_append, ← List.append_assoc] at h
    exact (List.append_inj' h rfl).1

/-- An entry with no `a` after it comes after every other `a`. -/
theorem mem_of_split (h : before ++ a :: mid = l ++ c :: since) (hne : a ≠ c)
    (hsince : a ∉ since) : c ∈ mid := by
  rcases List.append_eq_append_iff.mp h with ⟨as, rfl, hmid⟩ | ⟨cs, rfl, hsplit⟩
  · cases as with
    | nil => exact absurd (List.cons.inj hmid).1 hne
    | cons a' as =>
        obtain ⟨-, rfl⟩ := List.cons.inj hmid
        simp
  · cases cs with
    | nil => exact absurd (List.cons.inj hsplit).1.symm hne
    | cons c' cs =>
        obtain ⟨-, rfl⟩ := List.cons.inj hsplit
        simp at hsince

end Log

end Transition
