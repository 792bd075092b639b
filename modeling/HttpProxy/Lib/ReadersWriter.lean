import Mathlib.Data.List.Count
import Mathlib.Tactic.Common

/-!
# The readers-writer discipline

The abstract object counts the grants that are open: any number of readers, or one
writer and nobody else.  `Step` lists what may happen to the counts, and
`Exclusive` is the law every step keeps.
-/

namespace ReadersWriter

/-- The numbers of open read and write grants of one resource. -/
structure Grants where
  readers : ℕ
  writers : ℕ
  deriving DecidableEq, Repr

def Grants.none : Grants := ⟨0, 0⟩

/-- At most one writer, and a writer excludes every reader. -/
def Grants.Exclusive (g : Grants) : Prop :=
  g.writers ≤ 1 ∧ (0 < g.writers → g.readers = 0)

theorem Grants.exclusive_none : Grants.none.Exclusive := by
  simp [Grants.none, Grants.Exclusive]

/-- What one step may do to the counts. -/
inductive Step : Grants → Grants → Prop
  | stay (g : Grants) : Step g g
  | acquireRead (r : ℕ) : Step ⟨r, 0⟩ ⟨r + 1, 0⟩
  | acquireWrite : Step ⟨0, 0⟩ ⟨0, 1⟩
  | releaseRead (r w : ℕ) : Step ⟨r + 1, w⟩ ⟨r, w⟩
  | releaseWrite (r w : ℕ) : Step ⟨r, w + 1⟩ ⟨r, w⟩

theorem Step.exclusive {g g' : Grants} (h : Step g g') (hg : g.Exclusive) : g'.Exclusive := by
  unfold Grants.Exclusive at hg ⊢
  cases h with
  | stay => exact hg
  | acquireRead => simp
  | acquireWrite => simp
  | releaseRead => exact ⟨hg.1, fun hw ↦ by have := hg.2 hw; simp at this⟩
  | releaseWrite r w => exact ⟨by have := hg.1; simp at this ⊢; omega, fun _ ↦ hg.2 (by simp)⟩

/-! ## Counting grants over a list of parties -/

section Count

variable {α : Type*}

/-- Replacing one party's entry moves a count by what that entry contributes. -/
theorem countP_set_add {p : α → Bool} {l : List α} {i : ℕ} {a b : α} (h : l[i]? = some a) :
    (l.set i b).countP p + (if p a then 1 else 0) = l.countP p + (if p b then 1 else 0) := by
  obtain ⟨hi, rfl⟩ := List.getElem?_eq_some_iff.mp h
  have hpos : (if p l[i] = true then 1 else 0) ≤ l.countP p := by
    by_cases hp : p l[i] = true
    · simpa [hp, List.one_le_countP_iff] using ⟨l[i], List.getElem_mem hi, hp⟩
    · simp [hp]
  rw [List.countP_set hi]
  omega

theorem countP_set_eq {p : α → Bool} {l : List α} {i : ℕ} {a b : α} (h : l[i]? = some a)
    (hab : p a = p b) : (l.set i b).countP p = l.countP p := by
  have := countP_set_add (p := p) (b := b) h
  rw [hab] at this
  omega

theorem countP_pos_of_get {p : α → Bool} {l : List α} {i : ℕ} {a : α} (h : l[i]? = some a)
    (hp : p a = true) : 0 < l.countP p :=
  List.countP_pos_iff.mpr ⟨a, List.mem_of_getElem? h, hp⟩

end Count

end ReadersWriter
