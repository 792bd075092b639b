import Mathlib.Tactic.Common

/-!
# Ledgers of resources

A ledger lists acquisitions and releases in their order.  It is balanced if each acquisition is
followed by exactly one release of what was acquired.
-/

namespace Ledger

inductive Entry (R : Type*)
  | acquire (r : R)
  | release (r : R)
  deriving DecidableEq, Repr

variable {R : Type*} [DecidableEq R] {r : R} {rs : List R} {l l' : List (Entry R)}

/-- How often the resource is released. -/
def releases (r : R) (l : List (Entry R)) : ℕ := l.count (.release r)

def Balanced (l : List (Entry R)) : Prop :=
  ∀ (before : List (Entry R)) (r : R) (after : List (Entry R)),
    l = before ++ .acquire r :: after → releases r after = 1

/-! ## Counting releases -/

@[simp] theorem releases_nil (r : R) : releases r [] = 0 := rfl

@[simp] theorem releases_acquire (r r' : R) (l : List (Entry R)) :
    releases r (.acquire r' :: l) = releases r l :=
  List.count_cons_of_ne (by rintro ⟨⟩)

@[simp] theorem releases_release (r r' : R) (l : List (Entry R)) :
    releases r (.release r' :: l) = releases r l + if r' = r then 1 else 0 := by
  simp [releases, List.count_cons]

@[simp] theorem releases_append (r : R) (l l' : List (Entry R)) :
    releases r (l ++ l') = releases r l + releases r l' :=
  List.count_append

@[simp] theorem releases_map_acquire (r : R) (rs : List R) :
    releases r (rs.map .acquire) = 0 := by
  induction rs with
  | nil => rfl
  | cons r' rs ih => rwa [List.map_cons, releases_acquire]

@[simp] theorem releases_map_release (r : R) (rs : List R) :
    releases r (rs.map .release) = rs.count r := by
  induction rs with
  | nil => rfl
  | cons r' rs ih => simp [ih, List.count_cons]

/-! ## Balanced ledgers -/

@[simp] theorem balanced_nil : Balanced ([] : List (Entry R)) := by
  intro before r after h
  exact absurd h (by simp)

@[simp] theorem balanced_acquire :
    Balanced (.acquire r :: l) ↔ releases r l = 1 ∧ Balanced l := by
  constructor
  · intro h
    refine ⟨h [] r l rfl, fun before r' after hl ↦ h (.acquire r :: before) r' after ?_⟩
    rw [hl, List.cons_append]
  · rintro ⟨hr, h⟩ before r' after hl
    cases before with
    | nil =>
        obtain ⟨hacquire, rfl⟩ := List.cons.inj hl
        rwa [← Entry.acquire.inj hacquire]
    | cons e before => exact h before r' after (List.cons.inj hl).2

@[simp] theorem balanced_release : Balanced (.release r :: l) ↔ Balanced l := by
  constructor
  · intro h before r' after hl
    apply h (.release r :: before) r' after
    rw [hl, List.cons_append]
  · intro h before r' after hl
    cases before with
    | nil => exact absurd (List.cons.inj hl).1 (by simp)
    | cons e before => exact h before r' after (List.cons.inj hl).2

theorem balanced_of_releases (h : ∀ r, .acquire r ∉ l) : Balanced l := by
  intro before r after hl
  apply absurd _ (h r)
  rw [hl]
  exact List.mem_append_right _ List.mem_cons_self

/-- Behind releases a ledger is balanced as it is alone. -/
theorem balanced_append_of_releases (h : ∀ r, .acquire r ∉ l) :
    Balanced (l ++ l') ↔ Balanced l' := by
  induction l with
  | nil => exact Iff.rfl
  | cons e l ih =>
      have hrest := ih fun r hr ↦ h r (List.mem_cons_of_mem _ hr)
      cases e with
      | acquire r => exact absurd List.mem_cons_self (h r)
      | release r => rwa [List.cons_append, balanced_release]

@[simp] theorem balanced_map_acquire_append :
    Balanced (rs.map .acquire ++ l) ↔ (∀ r ∈ rs, releases r l = 1) ∧ Balanced l := by
  induction rs with
  | nil => simp
  | cons r rs ih =>
      rw [List.map_cons, List.cons_append, balanced_acquire, ih, releases_append,
        releases_map_acquire, Nat.zero_add, List.forall_mem_cons, and_assoc]

/-- Releases of what has not been acquired balance nothing. -/
theorem balanced_append_map_release (h : ∀ r ∈ rs, .acquire r ∉ l) :
    Balanced (l ++ rs.map .release) ↔ Balanced l := by
  induction l with
  | nil => exact iff_of_true (balanced_of_releases (by simp)) balanced_nil
  | cons e l ih =>
      have hrest := ih fun r hr hmem ↦ h r hr (List.mem_cons_of_mem _ hmem)
      cases e with
      | acquire r =>
          have hcount : rs.count r = 0 :=
            List.count_eq_zero.mpr fun hr ↦ h r hr List.mem_cons_self
          rw [List.cons_append, balanced_acquire, balanced_acquire, hrest, releases_append,
            releases_map_release, hcount, Nat.add_zero]
      | release r => rwa [List.cons_append, balanced_release, balanced_release]

end Ledger
