import Mathlib.Tactic.Common

/-!
# Computations that fail exactly when a condition fails

`Decides r c P` reads: the computation `r` returns if and only if `c` holds, and what it
returns meets `P`.  The rules follow the shape of the computation.
-/

namespace Fallible

universe u v

variable {ε : Type v} {α β : Type u} {r : Except ε α} {c d : Prop} {P Q : α → Prop}

/-- `r` returns exactly under the condition `c`, with a result that meets `P`. -/
def Decides (r : Except ε α) (c : Prop) (P : α → Prop) : Prop :=
  (c ∧ ∃ a, r = .ok a ∧ P a) ∨ (¬c ∧ ∃ e, r = .error e)

theorem decides_ok {a : α} (hc : c) (ha : P a) : Decides (.ok a : Except ε α) c P :=
  .inl ⟨hc, a, rfl, ha⟩

theorem decides_error {e : ε} (hc : ¬c) : Decides (.error e : Except ε α) c P :=
  .inr ⟨hc, e, rfl⟩

theorem Decides.congr (h : Decides r c P) (hcd : c ↔ d) : Decides r d P := by
  rwa [propext hcd] at h

theorem bind_eq_ok {f : α → Except ε β} {b : β} :
    r >>= f = .ok b ↔ ∃ a, r = .ok a ∧ f a = .ok b := by
  cases r with
  | error e => exact ⟨nofun, nofun⟩
  | ok a => exact ⟨fun h ↦ ⟨a, rfl, h⟩, fun ⟨_, ha, h⟩ ↦ by cases ha; exact h⟩

/-- A sequence returns when both parts do. -/
theorem Decides.bind {f : α → Except ε β} {R : β → Prop} (h : Decides r c P)
    (hf : ∀ a, P a → Decides (f a) d R) : Decides (r >>= f) (c ∧ d) R := by
  rcases h with ⟨hc, a, rfl, ha⟩ | ⟨hc, e, rfl⟩
  · rcases hf a ha with ⟨hd, b, hb, hR⟩ | ⟨hd, e, he⟩
    · exact .inl ⟨⟨hc, hd⟩, b, hb, hR⟩
    · exact .inr ⟨fun h ↦ hd h.2, e, he⟩
  · exact .inr ⟨fun h ↦ hc h.1, e, rfl⟩

/-- A loop over a list that keeps an invariant returns when every element passes. -/
theorem decides_foldlM {f : α → β → Except ε α} {ok : β → Prop}
    (hf : ∀ a b, P a → Decides (f a b) (ok b) P) (bs : List β) {a : α} (ha : P a) :
    Decides (bs.foldlM f a) (∀ b ∈ bs, ok b) P := by
  induction bs generalizing a with
  | nil => exact decides_ok (by simp) ha
  | cons b bs ih =>
      rw [List.foldlM_cons]
      exact ((hf a b ha).bind fun a' ha' ↦ ih ha').congr (by simp)

/-- A loop that keeps an invariant fails as its steps do. -/
theorem error_of_foldlM {E : ε → Prop} {f : α → β → Except ε α} {bs : List β} {a : α} {e : ε}
    (hok : ∀ a b a', P a → b ∈ bs → f a b = .ok a' → P a')
    (herror : ∀ a b e, P a → b ∈ bs → f a b = .error e → E e) (ha : P a)
    (h : bs.foldlM f a = .error e) : E e := by
  induction bs generalizing a with
  | nil => cases h
  | cons b bs ih =>
      rw [List.foldlM_cons] at h
      cases hstep : f a b with
      | error e' =>
          rw [hstep] at h
          cases h
          exact herror a b _ ha List.mem_cons_self hstep
      | ok a' =>
          rw [hstep] at h
          exact ih (fun a b a' ha hb ↦ hok a b a' ha (List.mem_cons_of_mem _ hb))
            (fun a b e ha hb ↦ herror a b e ha (List.mem_cons_of_mem _ hb))
            (hok a b a' ha List.mem_cons_self hstep) h

/-! ## Two computations -/

/-- Both return, with related results, or both fail in the same way. -/
inductive Matches (R : α → β → Prop) : Except ε α → Except ε β → Prop
  | ok {a : α} {b : β} (h : R a b) : Matches R (.ok a) (.ok b)
  | error (e : ε) : Matches R (.error e) (.error e)

theorem Matches.bind {R : α → β → Prop} {γ δ : Type u} {S : γ → δ → Prop} {r : Except ε α}
    {r' : Except ε β} {f : α → Except ε γ} {g : β → Except ε δ} (h : Matches R r r')
    (hf : ∀ a b, R a b → Matches S (f a) (g b)) : Matches S (r >>= f) (r' >>= g) := by
  cases h with
  | ok h => exact hf _ _ h
  | error e => exact .error e

theorem Matches.map_eq {R : α → β → Prop} {γ : Type u} {r : Except ε α} {r' : Except ε β}
    {f : α → γ} {g : β → γ} (h : Matches R r r') (hf : ∀ a b, R a b → f a = g b) :
    r.map f = r'.map g := by
  cases h with
  | ok h => exact congrArg Except.ok (hf _ _ h)
  | error e => rfl

end Fallible
