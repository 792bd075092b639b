import Mathlib.Logic.Function.Basic
import Mathlib.Tactic.Common

/-!
# Objects at places

Each place holds at most one object.  `Exclusive` says that no object is at two places at
once; creating an object, emptying a place, handing an object over and moving all objects
along an injection keep it so.
-/

namespace Ownership

variable {P J : Type*} {holds : P → Option J}

/-- No object is at two places. -/
def Exclusive (holds : P → Option J) : Prop :=
  ∀ ⦃p q : P⦄ ⦃j : J⦄, holds p = some j → holds q = some j → p = q

theorem exclusive_empty : Exclusive (fun _ : P ↦ (none : Option J)) := by
  intro p q j hp
  cases hp

/-- Each place is filled from another one, and no two places from the same. -/
theorem Exclusive.comp (h : Exclusive holds) {source : P → P}
    (hsource : Function.Injective source) : Exclusive (holds ∘ source) := by
  intro p q j hp hq
  exact hsource (h hp hq)

variable [DecidableEq P]

/-- An object that is nowhere may appear at any place. -/
theorem Exclusive.create (h : Exclusive holds) {j : J} (hnew : ∀ q, holds q ≠ some j) (p : P) :
    Exclusive (Function.update holds p (some j)) := by
  intro a b k ha hb
  by_cases hap : a = p
  · by_cases hbp : b = p
    · rw [hap, hbp]
    · subst hap
      simp only [Function.update_self, Option.some.injEq] at ha
      rw [Function.update_of_ne hbp, ← ha] at hb
      exact absurd hb (hnew b)
  · by_cases hbp : b = p
    · subst hbp
      simp only [Function.update_self, Option.some.injEq] at hb
      rw [Function.update_of_ne hap, ← hb] at ha
      exact absurd ha (hnew a)
    · rw [Function.update_of_ne hap] at ha
      rw [Function.update_of_ne hbp] at hb
      exact h ha hb

/-- Emptying a place. -/
theorem Exclusive.discard (h : Exclusive holds) (p : P) :
    Exclusive (Function.update holds p none) := by
  intro a b k ha hb
  have hkeep : ∀ {c}, Function.update holds p none c = some k → holds c = some k := by
    intro c hc
    by_cases hcp : c = p
    · subst hcp
      simp at hc
    · rwa [Function.update_of_ne hcp] at hc
  exact h (hkeep ha) (hkeep hb)

/-- Handing the object of one place over to another. -/
theorem Exclusive.handOver (h : Exclusive holds) {p q : P} {j : J} (hp : holds p = some j) :
    Exclusive (Function.update (Function.update holds p none) q (some j)) := by
  refine (h.discard p).create (fun r hr ↦ ?_) q
  by_cases hrp : r = p
  · subst hrp
    simp at hr
  · rw [Function.update_of_ne hrp] at hr
    exact hrp (h hr hp)

end Ownership
