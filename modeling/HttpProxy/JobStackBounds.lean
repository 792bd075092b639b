import HttpProxy.JobStackRuns
import Mathlib.Algebra.Order.Ring.Int

/-!
# The job stack never overflows

`job_stack_push_back` does not look for room.  Its room is the job its caller popped:
`top` plus the number of jobs in the consumers' hands stays within
`max_jobs + reserve_slots`, since a pop moves one unit from the first to the second, a
push-back moves it back, and a push only happens below `max_jobs`.
-/

namespace HttpProxy

open Transition

variable {α : Type} {maxJobs reserveSlots : ℤ} {consumers : Finset ℕ}

/-- Only a consumer pops, with empty hands, and it pushes back only the job it holds.
Everybody may push new jobs and signal the end. -/
def Discipline (consumers : Finset ℕ) (s : StackState α) : StackLabel α → Prop
  | .start t .pop => t ∈ consumers ∧ s.held t = none
  | .start t (.pushBack job) => t ∈ consumers ∧ s.held t = some job
  | _ => True

def holders (consumers : Finset ℕ) (held : ℕ → Option α) : Finset ℕ :=
  consumers.filter fun t ↦ (held t).isSome

theorem card_holders_le (held : ℕ → Option α) :
    (holders consumers held).card ≤ consumers.card :=
  Finset.card_le_card (Finset.filter_subset _ _)

theorem holders_update_some {held : ℕ → Option α} {t : ℕ} {job : α} (ht : t ∈ consumers)
    (hnone : held t = none) :
    (holders consumers (Function.update held t (some job))).card =
      (holders consumers held).card + 1 := by
  have hset : holders consumers (Function.update held t (some job)) =
      insert t (holders consumers held) := by
    ext u
    by_cases hu : u = t
    · subst hu
      simp [holders, ht]
    · simp [holders, hu]
  rw [hset, Finset.card_insert_of_notMem (by simp [holders, hnone])]

theorem holders_update_none {held : ℕ → Option α} {t : ℕ} {job : α} (ht : t ∈ consumers)
    (hsome : held t = some job) :
    (holders consumers (Function.update held t none)).card + 1 =
      (holders consumers held).card := by
  have hset : holders consumers (Function.update held t none) =
      (holders consumers held).erase t := by
    ext u
    by_cases hu : u = t
    · subst hu
      simp [holders]
    · simp [holders, hu]
  rw [hset]
  exact Finset.card_erase_add_one (by simp [holders, ht, hsome])

theorem card_holders_drop_le (consumers : Finset ℕ) (held : ℕ → Option α) (t : ℕ) :
    (holders consumers (Function.update held t none)).card ≤ (holders consumers held).card := by
  apply Finset.card_le_card
  intro u hu
  by_cases hut : u = t
  · subst hut
    simp [holders] at hu
  · simpa [holders, hut] using hu

/-- The operation a thread is inside of. -/
def StackPc.op? : StackPc α → Option (StackOp α)
  | .idle => none
  | .testFinished job => some (.pushBack job)
  | .lock op => some op
  | .body op => some op
  | .waiting _ op => some op
  | .unlock _ _ _ => none
  | .returned _ _ _ => none

/-- Inside a pop the hands are empty, inside a push-back they hold its argument. -/
def HandFits (consumers : Finset ℕ) (t : ℕ) (hand : Option α) : Option (StackOp α) → Prop
  | some .pop => t ∈ consumers ∧ hand = none
  | some (.pushBack job) => t ∈ consumers ∧ hand = some job
  | _ => True

/-- What the data of the stack satisfies when `inHand` popped jobs are outside it. -/
structure StackFits (maxJobs reserveSlots : ℤ) (stack : JobStack α) (inHand : ℕ) : Prop where
  max : stack.maxJobCount = maxJobs
  nonneg : 0 ≤ stack.top
  room : stack.top + inHand ≤ maxJobs + reserveSlots
  written : ∀ index ∈ stack.written, 0 ≤ index ∧ index ≤ maxJobs + reserveSlots
  filled : ∀ index, 0 ≤ index → index < stack.top → (stack.contentBase index).isSome

structure RoomKept (maxJobs reserveSlots : ℤ) (consumers : Finset ℕ) (s : StackState α) :
    Prop where
  fits : StackFits maxJobs reserveSlots s.shared.stack (holders consumers s.held).card
  hands : ∀ t, HandFits consumers t (s.held t) (s.pcs t).op?

/-! ## The data of each operation -/

theorem StackFits.pushed {stack : JobStack α} {n : ℕ} (h : StackFits maxJobs reserveSlots stack n)
    (job : α) (hn : n ≤ reserveSlots) (htop : stack.top < stack.maxJobCount) :
    StackFits maxJobs reserveSlots
      { jobStackSetItem stack stack.top (some job) with top := stack.top + 1 } n := by
  obtain ⟨hmax, hnonneg, hroom, hwritten, hfilled⟩ := h
  rw [hmax] at htop
  refine ⟨hmax, by simp; omega, by simp; omega, ?_, ?_⟩
  · intro index hindex
    rcases List.mem_cons.mp hindex with rfl | hold
    · omega
    · exact hwritten index hold
  · intro index hlow hhigh
    simp only [jobStackSetItem, Function.update_apply]
    split
    · rfl
    · exact hfilled index hlow (by simp only at hhigh; omega)

theorem StackFits.pushedBack {stack : JobStack α} {n : ℕ}
    (h : StackFits maxJobs reserveSlots stack (n + 1)) (job : α) :
    StackFits maxJobs reserveSlots (jobStackPushBack stack job).stack n := by
  obtain ⟨hmax, hnonneg, hroom, hwritten, hfilled⟩ := h
  push_cast at hroom
  refine ⟨by simpa [jobStackPushBack, jobStackSetItem] using hmax, ?_, ?_, ?_, ?_⟩
  · simp only [jobStackPushBack, jobStackSetItem, shiftItems_top]
    omega
  · simp only [jobStackPushBack, jobStackSetItem, shiftItems_top]
    omega
  · intro index hindex
    rcases List.mem_cons.mp hindex with rfl | hold
    · omega
    · rcases mem_shiftItems_written hold with hold | ⟨hlow, hhigh⟩
      · exact hwritten index hold
      · omega
  · intro index hlow hhigh
    simp only [jobStackPushBack, jobStackSetItem, shiftItems_top] at hhigh ⊢
    simp only [Function.update_apply, shiftItems_contentBase]
    split
    · rfl
    · rw [if_pos (by omega)]
      exact hfilled (index - 1) (by omega) (by omega)

theorem StackFits.popped {stack : JobStack α} {n : ℕ} (h : StackFits maxJobs reserveSlots stack n)
    (htop : stack.top ≠ 0) :
    StackFits maxJobs reserveSlots { stack with top := stack.top - 1 } (n + 1) ∧
      (jobStackGetItem stack (stack.top - 1)).isSome := by
  obtain ⟨hmax, hnonneg, hroom, hwritten, hfilled⟩ := h
  refine ⟨⟨hmax, by simp only; omega, by push_cast; omega, hwritten, ?_⟩,
    hfilled _ (by omega) (by omega)⟩
  intro index hlow hhigh
  exact hfilled index hlow (by simp only at hhigh; omega)

/-! ## Every step keeps the room -/

theorem HandFits.update {pcs : ℕ → StackPc α} {held : ℕ → Option α}
    (h : ∀ u, HandFits consumers u (held u) (pcs u).op?) {t : ℕ} {pc' : StackPc α}
    {hand : Option α} (ht : HandFits consumers t hand pc'.op?) (u : ℕ) :
    HandFits consumers u (Function.update held t hand u) (Function.update pcs t pc' u).op? := by
  by_cases hu : u = t
  · subst hu
    simpa using ht
  · simpa [hu] using h u

theorem RoomKept.quiet {s : StackState α} (hs : RoomKept maxJobs reserveSlots consumers s)
    {t : ℕ} {sh' : StackShared α} {pc' : StackPc α}
    (hfits : StackFits maxJobs reserveSlots sh'.stack (holders consumers s.held).card)
    (hop : pc'.op? = none ∨ pc'.op? = (s.pcs t).op?)
    (hhand : handAfter (s.held t) (s.pcs t) pc' = s.held t) :
    RoomKept maxJobs reserveSlots consumers
      ⟨sh', Function.update s.pcs t pc',
        Function.update s.held t (handAfter (s.held t) (s.pcs t) pc')⟩ := by
  rw [hhand]
  refine ⟨by simpa using hfits, HandFits.update hs.hands ?_⟩
  rcases hop with hnone | hsame
  · rw [hnone]
    trivial
  · rw [hsame]
    exact hs.hands t

/-- The locked part of an operation: one case for each thing it can do to the data. -/
theorem RoomKept.body {s : StackState α} (hs : RoomKept maxJobs reserveSlots consumers s)
    (hcard : (consumers.card : ℤ) ≤ reserveSlots) {t : ℕ} {op : StackOp α}
    {sh' : StackShared α} {pc' : StackPc α} (hpc : s.pcs t = .body op)
    (h : StackStep t s.shared (.body op) sh' pc') :
    RoomKept maxJobs reserveSlots consumers
      ⟨sh', Function.update s.pcs t pc',
        Function.update s.held t (handAfter (s.held t) (s.pcs t) pc')⟩ := by
  have hhand := hs.hands t
  rw [hpc] at hhand
  have hfew : ((holders consumers s.held).card : ℤ) ≤ reserveSlots :=
    (Int.ofNat_le.mpr (card_holders_le s.held)).trans hcard
  have hchange := StackOp.run_change s.shared.stack op
  cases h with
  | keep hrun =>
      rw [hrun] at hchange
      cases hchange with
      | refused => exact hs.quiet hs.fits (.inl rfl) (by rw [hpc]; rfl)
  | wait hrun =>
      rw [hrun] at hchange
      cases hchange with
      | full => exact hs.quiet hs.fits (.inr (by rw [hpc]; rfl)) (by rw [hpc]; rfl)
      | empty => exact hs.quiet hs.fits (.inr (by rw [hpc]; rfl)) (by rw [hpc]; rfl)
  | leave hrun =>
      cases op with
      | push job =>
          rw [hrun] at hchange
          cases hchange with
          | pushed _ _ htop =>
              exact hs.quiet (hs.fits.pushed job hfew htop) (.inl rfl) (by rw [hpc]; rfl)
      | pushBack job =>
          obtain ⟨ht, hheld⟩ := hhand
          have hcount := holders_update_none ht hheld
          simp only [StackOp.run, jobStackPushBack, Locked.mk.injEq, Exit.unlock.injEq] at hrun
          obtain ⟨rfl, rfl, rfl, rfl⟩ := hrun
          rw [hpc]
          refine ⟨?_, HandFits.update hs.hands trivial⟩
          change StackFits _ _ (jobStackPushBack s.shared.stack job).stack
            (holders consumers (Function.update s.held t none)).card
          exact StackFits.pushedBack (hcount ▸ hs.fits) job
      | pop =>
          obtain ⟨ht, hheld⟩ := hhand
          rw [hrun] at hchange
          cases hchange with
          | drained => exact hs.quiet hs.fits (.inl rfl) (by rw [hpc]; exact rfl)
          | popped htop =>
              obtain ⟨hfits, hsome⟩ := hs.fits.popped htop
              obtain ⟨job, hjob⟩ := Option.isSome_iff_exists.mp hsome
              rw [hpc, hjob]
              refine ⟨?_, HandFits.update hs.hands trivial⟩
              change StackFits _ _ _ (holders consumers (Function.update s.held t (some job))).card
              rwa [holders_update_some ht hheld]
      | signalFinish =>
          rw [hrun] at hchange
          cases hchange with
          | signalled =>
              exact hs.quiet ⟨hs.fits.max, hs.fits.nonneg, hs.fits.room, hs.fits.written,
                hs.fits.filled⟩ (.inl rfl) (by rw [hpc]; rfl)

theorem RoomKept.advance {s : StackState α} (hs : RoomKept maxJobs reserveSlots consumers s)
    (hcard : (consumers.card : ℤ) ≤ reserveSlots) {t : ℕ} {sh' : StackShared α}
    {pc' : StackPc α} (h : StackStep t s.shared (s.pcs t) sh' pc') :
    RoomKept maxJobs reserveSlots consumers
      ⟨sh', Function.update s.pcs t pc',
        Function.update s.held t (handAfter (s.held t) (s.pcs t) pc')⟩ := by
  cases hpc : s.pcs t <;> rw [hpc] at h
  case testFinished job =>
    cases h with
    | testFail => exact hpc ▸ hs.quiet hs.fits (.inl rfl) (by rw [hpc]; rfl)
    | testPass => exact hpc ▸ hs.quiet hs.fits (.inr (by rw [hpc]; rfl)) (by rw [hpc]; rfl)
  case lock op =>
    cases h with
    | lock => exact hpc ▸ hs.quiet hs.fits (.inr (by rw [hpc]; rfl)) (by rw [hpc]; rfl)
  case waiting c op =>
    cases h with
    | spurious => exact hpc ▸ hs.quiet hs.fits (.inr (by rw [hpc])) (by rw [hpc]; rfl)
    | relock => exact hpc ▸ hs.quiet hs.fits (.inl rfl) (by rw [hpc]; rfl)
  case unlock op status out =>
    cases h with
    | unlock => exact hpc ▸ hs.quiet hs.fits (.inl rfl) (by rw [hpc]; rfl)
  case body op => exact hpc ▸ hs.body hcard hpc h
  all_goals cases h

theorem RoomKept.start {s : StackState α} (hs : RoomKept maxJobs reserveSlots consumers s)
    {t : ℕ} (op : StackOp α) (hguard : Discipline consumers s (.start t op)) :
    RoomKept maxJobs reserveSlots consumers { s with pcs := Function.update s.pcs t op.enter } := by
  refine ⟨hs.fits, fun u ↦ ?_⟩
  by_cases hu : u = t
  · subst hu
    cases op with
    | push => simp [StackOp.enter, StackPc.op?, HandFits]
    | pushBack job => simpa [StackOp.enter, StackPc.op?, HandFits, Discipline] using hguard
    | pop => simpa [StackOp.enter, StackPc.op?, HandFits, Discipline] using hguard
    | signalFinish => simp [StackOp.enter, StackPc.op?, HandFits]
  · simpa [hu] using hs.hands u

theorem StackPc.Outside.op?_eq_none {pc : StackPc α} (h : pc.Outside) : pc.op? = none := by
  cases pc <;> first | rfl | cases h

theorem RoomKept.drop {s : StackState α} (hs : RoomKept maxJobs reserveSlots consumers s)
    {t : ℕ} (hout : (s.pcs t).Outside) :
    RoomKept maxJobs reserveSlots consumers { s with held := Function.update s.held t none } := by
  have hless := card_holders_drop_le consumers s.held t
  refine ⟨⟨hs.fits.max, hs.fits.nonneg, ?_, hs.fits.written, hs.fits.filled⟩, fun u ↦ ?_⟩
  · have := hs.fits.room
    simp only
    omega
  · by_cases hu : u = t
    · subst hu
      simp [hout.op?_eq_none, HandFits]
    · simpa [hu] using hs.hands u

theorem roomKept_reachable (hmax : 0 ≤ maxJobs) (hcard : (consumers.card : ℤ) ≤ reserveSlots)
    {s : StackState α}
    (hs : ((jobStackSystem α maxJobs reserveSlots).guarded (Discipline consumers)).Reachable s) :
    RoomKept maxJobs reserveSlots consumers s := by
  refine System.reachable_induction (I := RoomKept maxJobs reserveSlots consumers) ?_ ?_ hs
  · rintro s rfl
    refine ⟨⟨rfl, by simp [stackInit, jobStackConstruct], ?_,
      by simp [stackInit, jobStackConstruct], ?_⟩, fun t ↦ trivial⟩
    · have hempty : holders consumers (stackInit (α := α) maxJobs reserveSlots).held = ∅ := by
        simp [holders, stackInit]
      rw [hempty]
      simp [stackInit, jobStackConstruct]
      omega
    · intro index hlow hhigh
      simp [stackInit, jobStackConstruct] at hhigh
      omega
  · rintro s a s' ih ⟨hguard, h⟩
    cases h with
    | start op hout => exact ih.start op hguard
    | drop hout => exact ih.drop hout
    | advance h => exact ih.advance hcard h

/-- With at most `reserve_slots` consumers, each holding at most one popped job, `top`
and every index written stay inside the `max_jobs + reserve_slots + 1` slots. -/
theorem jobStack_never_overflows (hmax : 0 ≤ maxJobs)
    (hcard : (consumers.card : ℤ) ≤ reserveSlots) {s : StackState α}
    (hs : ((jobStackSystem α maxJobs reserveSlots).guarded (Discipline consumers)).Reachable s) :
    0 ≤ s.shared.stack.top ∧ s.shared.stack.top ≤ maxJobs + reserveSlots ∧
      ∀ index ∈ s.shared.stack.written, 0 ≤ index ∧ index ≤ maxJobs + reserveSlots := by
  have hfits := (roomKept_reachable hmax hcard hs).fits
  have hroom := hfits.room
  exact ⟨hfits.nonneg, by omega, hfits.written⟩

/-- The calls of `t` in a run that nobody else is in: the lock, the body and the unlock. -/
theorem reachable_call {s : StackState α} (t : ℕ) (op : StackOp α) {stack : JobStack α}
    {c : Cond} {status : Status} {out : Option α}
    (hs : ((jobStackSystem α maxJobs reserveSlots).guarded (Discipline consumers)).Reachable s)
    (hpc : s.pcs t = .lock op) (hfree : s.shared.mutex = none)
    (hnobody : s.shared.waiters = fun _ ↦ ∅)
    (hrun : op.run s.shared.stack = ⟨stack, .signal c, .unlock status out⟩) :
    ∃ s' : StackState α,
      ((jobStackSystem α maxJobs reserveSlots).guarded (Discipline consumers)).Reachable s' ∧
        s'.shared = ⟨stack, none, fun _ ↦ ∅⟩ ∧
          s'.pcs = Function.update s.pcs t (.returned op status out) ∧
            s'.held = Function.update s.held t
              (handAfter (s.held t) (.body op) (.unlock op status out)) := by
  have hwake : Woken s.shared.waiters (.signal c) (Function.update s.shared.waiters c ∅) :=
    .signal ∅ (Finset.empty_subset _) fun h ↦ h.ne_empty.symm
  have hlock := hs.step_guarded (.of_pc (t := t) (.lock op) hpc (.lock hfree)) trivial
  have hbody := hlock.step_guarded (.of_pc (t := t) (.body op) (Function.update_self _ _ _)
    (.leave hrun hwake)) trivial
  have hunlock := hbody.step_guarded (.of_pc (t := t) (.unlock op status out)
    (Function.update_self _ _ _) .unlock) trivial
  refine ⟨_, hunlock, ?_, ?_, ?_⟩
  · simp [hnobody]
  · simp
  · have hlocked (hand : Option α) : handAfter hand (.lock op) (.body op) = hand := rfl
    have hunlocked (hand : Option α) :
        handAfter hand (.unlock op status out) (.returned op status out) = hand := rfl
    simp [hlocked, hunlocked]

/-- With one slot, one slot in reserve and one consumer: the job that the consumer has popped is
pushed back when another one has taken its place. -/
theorem jobStack_never_overflows_pushBack :
    ∃ s : StackState ℕ, s.shared.stack.top = 1 + 1 ∧ s.shared.stack.written = [0, 1, 0, 0] ∧
      0 ≤ s.shared.stack.top ∧ s.shared.stack.top ≤ 1 + 1 ∧
        ∀ index ∈ s.shared.stack.written, 0 ≤ index ∧ index ≤ 1 + 1 := by
  have hinit : ((jobStackSystem ℕ 1 1).guarded (Discipline {0})).Reachable (stackInit 1 1) :=
    .init rfl
  have hpush := hinit.step_guarded (.start (t := 1) (.push 7) trivial) trivial
  obtain ⟨s₁, hs₁, hshared₁, hpcs₁, hheld₁⟩ := reachable_call 1 (.push 7) hpush rfl rfl rfl rfl
  have houtside₁ : (s₁.pcs 0).Outside := by simp [hpcs₁, stackInit, StackPc.Outside]
  have hempty : s₁.held 0 = none := by simp [hheld₁, stackInit]
  have hpop := hs₁.step_guarded (.start (t := 0) .pop houtside₁) ⟨by simp, hempty⟩
  obtain ⟨s₂, hs₂, hshared₂, hpcs₂, hheld₂⟩ := reachable_call 0 .pop hpop rfl
    (by rw [hshared₁]) (by rw [hshared₁]) (by rw [hshared₁]; rfl)
  have houtside₂ : (s₂.pcs 1).Outside := by simp [hpcs₂, hpcs₁, StackPc.Outside]
  have hpush₂ := hs₂.step_guarded (.start (t := 1) (.push 8) houtside₂) trivial
  obtain ⟨s₃, hs₃, hshared₃, hpcs₃, hheld₃⟩ := reachable_call 1 (.push 8) hpush₂ rfl
    (by rw [hshared₂]) (by rw [hshared₂]) (by rw [hshared₂]; rfl)
  have houtside₃ : (s₃.pcs 0).Outside := by simp [hpcs₃, hpcs₂, StackPc.Outside]
  have hholds : s₃.held 0 = some 7 := by
    rw [hheld₃, Function.update_of_ne (by decide), hheld₂]
    rfl
  have hback := hs₃.step_guarded (.start (t := 0) (.pushBack 7) houtside₃) ⟨by simp, hholds⟩
  have htest := hback.step_guarded (.of_pc (t := 0) (.testFinished 7) rfl (.testPass (by
    rw [hshared₃]
    rfl))) trivial
  obtain ⟨s₄, hs₄, hshared₄, -, -⟩ := reachable_call 0 (.pushBack 7) htest rfl
    (by rw [hshared₃]) (by rw [hshared₃]) (by rw [hshared₃]; rfl)
  refine ⟨s₄, by rw [hshared₄]; rfl, by rw [hshared₄]; rfl, ?_⟩
  exact jobStack_never_overflows (by omega) (by simp) hs₄

end HttpProxy
