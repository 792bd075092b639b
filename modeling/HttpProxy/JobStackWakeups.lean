import HttpProxy.JobStackBounds

/-!
# No lost wakeups

A thread that finds the stack empty or full waits once, without a loop around the wait,
and reports FAIL when it is woken.  A pop frees one slot and wakes a producer, so no more
producers wait than there are jobs on the stack; a consumer that waits last saw the stack
empty, and whatever fills it wakes one of them.
-/

namespace HttpProxy

open Transition

variable {α : Type} {maxJobs reserveSlots : ℤ} {consumers producers : Finset ℕ}

/-- Consumers pop and push back, producers push, and anybody may signal the end. -/
def Roles (consumers producers : Finset ℕ) (_ : StackState α) : StackLabel α → Prop
  | .start t .pop => t ∈ consumers
  | .start t (.pushBack _) => t ∈ consumers
  | .start t (.push _) => t ∈ producers
  | _ => True

/-- All that a step can do to `top` and to the waiting threads. -/
inductive WaitChange (t : ℕ) (sh sh' : StackShared α) (pc : StackPc α) : Prop
  | quiet (htop : sh'.stack.top = sh.stack.top) (hwaiters : sh'.waiters = sh.waiters)
  | sleepEmpty (hpc : pc = .body .pop) (hempty : sh.stack.top = 0)
      (htop : sh'.stack.top = sh.stack.top)
      (hwaiters : sh'.waiters =
        Function.update sh.waiters .notEmpty (insert t (sh.waiters .notEmpty)))
  | sleepFull (job : α) (hpc : pc = .body (.push job))
      (hfull : sh.stack.maxJobCount ≤ sh.stack.top) (htop : sh'.stack.top = sh.stack.top)
      (hwaiters : sh'.waiters =
        Function.update sh.waiters .notFull (insert t (sh.waiters .notFull)))
  | added (left : Finset ℕ) (hsub : left ⊆ sh.waiters .notEmpty)
      (hone : (sh.waiters .notEmpty).Nonempty → left ≠ sh.waiters .notEmpty)
      (htop : sh'.stack.top = sh.stack.top + 1)
      (hwaiters : sh'.waiters = Function.update sh.waiters .notEmpty left)
  | taken (left : Finset ℕ) (hsub : left ⊆ sh.waiters .notFull)
      (hone : (sh.waiters .notFull).Nonempty → left ≠ sh.waiters .notFull)
      (hsome : sh.stack.top ≠ 0) (htop : sh'.stack.top = sh.stack.top - 1)
      (hwaiters : sh'.waiters = Function.update sh.waiters .notFull left)
  | woken (c : Cond) (left : Finset ℕ) (hsub : left ⊆ sh.waiters c)
      (htop : sh'.stack.top = sh.stack.top)
      (hwaiters : sh'.waiters = Function.update sh.waiters c left)

theorem StackStep.waitChange {t : ℕ} {sh sh' : StackShared α} {pc pc' : StackPc α}
    (h : StackStep t sh pc sh' pc') : WaitChange t sh sh' pc := by
  cases h with
  | @keep op stack status hrun =>
      have hchange := StackOp.run_change sh.stack op
      rw [hrun] at hchange
      cases hchange with
      | refused => exact .quiet rfl rfl
  | @wait op stack c hrun =>
      have hchange := StackOp.run_change sh.stack op
      rw [hrun] at hchange
      cases hchange with
      | full job _ htop => exact .sleepFull job rfl htop rfl rfl
      | empty htop => exact .sleepEmpty rfl htop rfl rfl
  | @leave op stack wake status out waiters hrun hwake =>
      have hchange := StackOp.run_change sh.stack op
      rw [hrun] at hchange
      cases hchange with
      | pushed =>
          cases hwake with
          | signal left hsub hone => exact .added left hsub hone rfl rfl
      | pushedBack =>
          cases hwake with
          | signal left hsub hone =>
              exact .added left hsub hone (by simp [jobStackSetItem]) rfl
      | drained =>
          cases hwake with
          | nobody => exact .quiet rfl rfl
      | popped htop =>
          cases hwake with
          | signal left hsub hone => exact .taken left hsub hone htop rfl rfl
      | signalled =>
          cases hwake with
          | broadcast => exact .woken .notEmpty ∅ (Finset.empty_subset _) rfl rfl
  | @spurious op c => exact .woken c _ (Finset.erase_subset _ _) rfl rfl
  | _ => exact .quiet rfl rfl

/-- The thread plays the part its operation belongs to. -/
def RoleFits (consumers producers : Finset ℕ) (t : ℕ) : Option (StackOp α) → Prop
  | some .pop => t ∈ consumers
  | some (.push _) => t ∈ producers
  | _ => True

/-- Consumers wait for jobs and producers for room; all consumers wait only while the
stack is empty, and every waiting producer has a job of its own on the stack. -/
structure WaitersCounted (maxJobs : ℤ) (consumers producers : Finset ℕ) (s : StackState α) :
    Prop where
  roles : ∀ t, RoleFits consumers producers t (s.pcs t).op?
  max : s.shared.stack.maxJobCount = maxJobs
  consuming : s.shared.waiters .notEmpty ⊆ consumers
  producing : s.shared.waiters .notFull ⊆ producers
  empty : consumers ⊆ s.shared.waiters .notEmpty → s.shared.stack.top = 0
  room : ((s.shared.waiters .notFull).card : ℤ) ≤ s.shared.stack.top

theorem card_lt_of_left {ws left : Finset ℕ} (hsub : left ⊆ ws)
    (hone : ws.Nonempty → left ≠ ws) : left.card < ws.card ∨ ws = ∅ ∧ left = ∅ := by
  rcases ws.eq_empty_or_nonempty with rfl | hne
  · exact .inr ⟨rfl, Finset.subset_empty.mp hsub⟩
  · exact .inl (Finset.card_lt_card (hsub.ssubset_of_ne (hone hne)))

theorem StackStep.op?_eq {t : ℕ} {sh sh' : StackShared α} {pc pc' : StackPc α}
    (h : StackStep t sh pc sh' pc') : pc'.op? = none ∨ pc'.op? = pc.op? := by
  cases h <;> first | exact .inl rfl | exact .inr rfl

theorem StackStep.maxJobCount {t : ℕ} {sh sh' : StackShared α} {pc pc' : StackPc α}
    (h : StackStep t sh pc sh' pc') : sh'.stack.maxJobCount = sh.stack.maxJobCount := by
  have hrun : ∀ {op : StackOp α} {locked : Locked α}, op.run sh.stack = locked →
      locked.stack.maxJobCount = sh.stack.maxJobCount := by
    intro op locked hlocked
    have hchange := StackOp.run_change sh.stack op
    rw [hlocked] at hchange
    cases hchange <;> simp [jobStackPushBack, jobStackSetItem]
  cases h with
  | keep h => exact hrun h
  | wait h => exact hrun h
  | leave h => exact hrun h
  | _ => rfl

/-- A step of thread `t` keeps the count: one case for each thing a step can do to the
waiting threads. -/
theorem WaitersCounted.advance {s : StackState α}
    (hs : WaitersCounted maxJobs consumers producers s) (hC : consumers.Nonempty)
    (hP : (producers.card : ℤ) ≤ maxJobs) {t : ℕ} {sh' : StackShared α} {pc' : StackPc α}
    (h : StackStep t s.shared (s.pcs t) sh' pc') (held : ℕ → Option α) :
    WaitersCounted maxJobs consumers producers
      ⟨sh', Function.update s.pcs t pc', held⟩ := by
  have hroles : ∀ u, RoleFits consumers producers u (Function.update s.pcs t pc' u).op? := by
    intro u
    by_cases hu : u = t
    · subst hu
      rw [Function.update_self]
      rcases h.op?_eq with hnone | hsame
      · rw [hnone]
        trivial
      · exact hsame ▸ hs.roles u
    · simpa [hu] using hs.roles u
  have hmax := h.maxJobCount.trans hs.max
  have hroom := hs.room
  cases h.waitChange with
  | quiet htop hwaiters =>
      exact ⟨hroles, hmax, hwaiters ▸ hs.consuming, hwaiters ▸ hs.producing,
        by simpa [hwaiters, htop] using hs.empty, by simpa [hwaiters, htop] using hs.room⟩
  | sleepEmpty hpc hempty htop hwaiters =>
      have ht : t ∈ consumers := by simpa [hpc, StackPc.op?, RoleFits] using hs.roles t
      have hsub : insert t (s.shared.waiters .notEmpty) ⊆ consumers :=
        Finset.insert_subset ht hs.consuming
      exact ⟨hroles, hmax, by simpa [hwaiters] using hsub, by simpa [hwaiters] using hs.producing,
        fun _ ↦ htop.trans hempty, by simpa [hwaiters, htop] using hs.room⟩
  | sleepFull job hpc hfull htop hwaiters =>
      have ht : t ∈ producers := by simpa [hpc, StackPc.op?, RoleFits] using hs.roles t
      have hsub : insert t (s.shared.waiters .notFull) ⊆ producers :=
        Finset.insert_subset ht hs.producing
      refine ⟨hroles, hmax, by simpa [hwaiters] using hs.consuming, by simpa [hwaiters] using hsub,
        by simpa [hwaiters, htop] using hs.empty, ?_⟩
      have hcard := Finset.card_le_card hsub
      have hmax₀ := hs.max
      simp only [hwaiters, Function.update_self, htop]
      omega
  | added left hsub hone htop hwaiters =>
      refine ⟨hroles, hmax, by simpa [hwaiters] using hsub.trans hs.consuming,
        by simpa [hwaiters] using hs.producing, fun hall ↦ ?_, ?_⟩
      · -- a consumer among the waiters was woken, so they do not all wait any more
        simp only [hwaiters, Function.update_self] at hall
        have hwaiting : left = s.shared.waiters .notEmpty :=
          hsub.antisymm (hs.consuming.trans hall)
        exact absurd hwaiting (hone (hC.mono (hall.trans hsub)))
      · simp only [hwaiters, htop]
        simp
        omega
  | taken left hsub hone hsome htop hwaiters =>
      refine ⟨hroles, hmax, by simpa [hwaiters] using hs.consuming,
        by simpa [hwaiters] using hsub.trans hs.producing, fun hall ↦ ?_, ?_⟩
      · simp only [hwaiters] at hall
        exact absurd (hs.empty (by simpa using hall)) hsome
      · have hcard := card_lt_of_left hsub hone
        simp only [hwaiters, Function.update_self, htop]
        rcases hcard with hless | ⟨-, hnone⟩
        · omega
        · simp only [hnone, Finset.card_empty]
          omega
  | woken c left hsub htop hwaiters =>
      have hless : ∀ c', sh'.waiters c' ⊆ s.shared.waiters c' := by
        intro c'
        rw [hwaiters]
        by_cases hc : c' = c
        · subst hc
          simpa using hsub
        · simp [hc]
      refine ⟨hroles, hmax, (hless _).trans hs.consuming, (hless _).trans hs.producing,
        fun hall ↦ ?_, ?_⟩
      · exact htop.trans (hs.empty (hall.trans (hless _)))
      · have := Finset.card_le_card (hless .notFull)
        simp only [htop]
        omega

theorem waitersCounted_reachable (hC : consumers.Nonempty)
    (hP : (producers.card : ℤ) ≤ maxJobs) {s : StackState α}
    (hs : ((jobStackSystem α maxJobs reserveSlots).guarded (Roles consumers producers)).Reachable
      s) : WaitersCounted maxJobs consumers producers s := by
  refine System.reachable_induction (I := WaitersCounted maxJobs consumers producers) ?_ ?_ hs
  · rintro s rfl
    exact ⟨fun t ↦ trivial, rfl, Finset.empty_subset _, Finset.empty_subset _, fun _ ↦ rfl,
      by simp [stackInit, jobStackConstruct]⟩
  · rintro s a s' ih ⟨hguard, h⟩
    cases h with
    | @start t op hout =>
        refine ⟨fun u ↦ ?_, ih.max, ih.consuming, ih.producing, ih.empty, ih.room⟩
        by_cases hu : u = t
        · subst hu
          cases op with
          | pop => simpa [StackOp.enter, StackPc.op?, RoleFits, Roles] using hguard
          | push => simpa [StackOp.enter, StackPc.op?, RoleFits, Roles] using hguard
          | pushBack => simp [StackOp.enter, StackPc.op?, RoleFits]
          | signalFinish => simp [StackOp.enter, StackPc.op?, RoleFits]
        · simpa [hu] using ih.roles u
    | drop => exact ⟨ih.roles, ih.max, ih.consuming, ih.producing, ih.empty, ih.room⟩
    | advance h => exact ih.advance hC hP h _

/-- The thread waits on the condition and nobody has woken it yet. -/
def StackState.Waits (s : StackState α) (t : ℕ) (c : Cond) : Prop :=
  (∃ op, s.pcs t = .waiting c op) ∧ t ∈ s.shared.waiters c

/-- Consumers that all wait leave no job behind, no producer waits at an empty stack, and
so the two sides never wait for each other. -/
def NoLostWakeup (consumers producers : Finset ℕ) (s : StackState α) : Prop :=
  ((∀ t ∈ consumers, s.Waits t .notEmpty) → s.shared.stack.top = 0) ∧
    (s.shared.stack.top = 0 → ∀ t ∈ producers, ¬s.Waits t .notFull) ∧
      ¬((∃ t ∈ producers, s.Waits t .notFull) ∧ ∀ t ∈ consumers, s.Waits t .notEmpty)

/-- With at most `max_jobs` producers no wakeup is lost. -/
theorem jobStack_noLostWakeup (hC : consumers.Nonempty)
    (hP : (producers.card : ℤ) ≤ maxJobs) {s : StackState α}
    (hs : ((jobStackSystem α maxJobs reserveSlots).guarded (Roles consumers producers)).Reachable
      s) : NoLostWakeup consumers producers s := by
  have hcounted := waitersCounted_reachable hC hP hs
  have hempty : (∀ t ∈ consumers, s.Waits t .notEmpty) → s.shared.stack.top = 0 :=
    fun hall ↦ hcounted.empty fun t ht ↦ (hall t ht).2
  have hfull : s.shared.stack.top = 0 → ∀ t ∈ producers, ¬s.Waits t .notFull := by
    intro htop t _ hwait
    have hroom := hcounted.room
    have hpos : 0 < (s.shared.waiters .notFull).card := Finset.card_pos.mpr ⟨t, hwait.2⟩
    omega
  refine ⟨hempty, hfull, ?_⟩
  rintro ⟨⟨t, ht, hwait⟩, hall⟩
  exact hfull (hempty hall) t ht hwait

/-- A consumer that waits on an empty stack while a producer enters its push. -/
theorem jobStack_noLostWakeup_waitingConsumer :
    ∃ s : StackState ℕ, s.Waits 0 .notEmpty ∧ NoLostWakeup {0} {1} s := by
  have hinit : ((jobStackSystem ℕ 1 1).guarded (Roles {0} {1})).Reachable (stackInit 1 1) :=
    .init rfl
  have hcall := hinit.step_guarded (.start (t := 0) .pop trivial) (by simp [Roles])
  have hlock := hcall.step_guarded (.of_pc (t := 0) (.lock .pop) rfl (.lock rfl)) trivial
  have hwait := hlock.step_guarded (.of_pc (t := 0) (.body .pop) rfl (.wait rfl)) trivial
  have hpush := hwait.step_guarded (.start (t := 1) (.push 7) trivial) (by simp [Roles])
  exact ⟨_, ⟨⟨.pop, rfl⟩, by simp⟩, jobStack_noLostWakeup (by simp) (by simp) hpush⟩

end HttpProxy
