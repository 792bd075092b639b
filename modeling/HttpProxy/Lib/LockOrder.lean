import Mathlib.Data.Nat.Notation
import Mathlib.Logic.Relation

/-!
# Ordered locks

Threads that wait for locks other threads own.  If the owner of a lock only ever waits for locks
of a higher rank, then following the owners from any thread ends at one that is not blocked.
-/

namespace LockOrder

variable {ι L : Type*}

/-- What each thread waits for and who owns each lock. -/
structure Locks (ι L : Type*) where
  waits : ι → Option L
  owner : L → Option ι

variable {locks : Locks ι L} {rank : L → ℕ} {t u : ι}

/-- The first thread waits for a lock that the second one owns. -/
def Locks.BlockedBy (locks : Locks ι L) (t u : ι) : Prop :=
  ∃ l, locks.waits t = some l ∧ locks.owner l = some u

/-- Who owns a lock waits for a higher one, if for any. -/
def Locks.Ordered (locks : Locks ι L) (rank : L → ℕ) : Prop :=
  ∀ l u, locks.owner l = some u → ∀ m, locks.waits u = some m → rank l < rank m

def Locks.Unblocked (locks : Locks ι L) (t : ι) : Prop :=
  ∀ l, locks.waits t = some l → locks.owner l = none

theorem Locks.Ordered.exists_unblocked (h : locks.Ordered rank) {bound : ℕ}
    (hbound : ∀ l, rank l < bound) (t : ι) :
    ∃ u, Relation.ReflTransGen locks.BlockedBy t u ∧ locks.Unblocked u := by
  cases hwaits : locks.waits t with
  | none => exact ⟨t, .refl, fun l hl ↦ by simp [hwaits] at hl⟩
  | some l =>
      -- each owner on the way waits for a lock closer to the bound
      induction hdistance : bound - rank l using Nat.strongRecOn generalizing t l with
      | ind distance ih =>
          cases howner : locks.owner l with
          | none =>
              refine ⟨t, .refl, fun m hm ↦ ?_⟩
              obtain rfl : l = m := Option.some.inj (hwaits.symm.trans hm)
              exact howner
          | some u =>
              have hblocked : locks.BlockedBy t u := ⟨l, hwaits, howner⟩
              cases hnext : locks.waits u with
              | none => exact ⟨u, .single hblocked, fun m hm ↦ by simp [hnext] at hm⟩
              | some m =>
                  have hrank := h l u howner m hnext
                  have hm := hbound m
                  obtain ⟨v, hpath, hfree⟩ :=
                    ih (bound - rank m) (by omega) u m hnext rfl
                  exact ⟨v, .head hblocked hpath, hfree⟩

end LockOrder
