import HttpProxy.JobStackRuns

/-!
# The mutex of the job stack

Which thread owns the mutex is read off the program points, as long as no push takes
the mutex after the finish signal.  A push that does returns with the mutex owned, and
then nobody ever takes it again.
-/

namespace HttpProxy

open Transition

variable {α : Type} {maxJobs reserveSlots : ℤ}

/-- All that a step can do with the mutex. -/
inductive MutexChange (t : ℕ) (sh : StackShared α) (pc : StackPc α) (sh' : StackShared α)
    (pc' : StackPc α) : Prop
  | apart (hpc : ¬ pc.Inside) (hpc' : ¬ pc'.Inside) (hmutex : sh'.mutex = sh.mutex)
      (hstack : sh'.stack = sh.stack)
  | acquire (hpc : ¬ pc.Inside) (hpc' : pc'.Inside) (hfree : sh.mutex = none)
      (hmutex : sh'.mutex = some t) (hstack : sh'.stack = sh.stack)
      (hbody : ∀ op, pc' = .body op → pc = .lock op)
  | work (hpc : pc.Inside) (hpc' : pc'.Inside) (hmutex : sh'.mutex = sh.mutex)
      (hbody : ∀ op, pc' ≠ .body op)
  | release (hpc : pc.Inside) (hpc' : ¬ pc'.Inside) (hmutex : sh'.mutex = none)
  | leak (job : α) (hpc : pc = .body (.push job)) (hfin : sh.stack.finished = true)
      (hpc' : pc' = .returned (.push job) .finished none) (hsame : sh' = sh)

theorem StackStep.mutexChange {t : ℕ} {sh sh' : StackShared α} {pc pc' : StackPc α}
    (h : StackStep t sh pc sh' pc') : MutexChange t sh pc sh' pc' := by
  cases h with
  | testFail => exact .apart id id rfl rfl
  | testPass => exact .apart id id rfl rfl
  | lock hfree =>
      exact .acquire id trivial hfree rfl rfl fun op hop ↦ by cases hop; rfl
  | @keep op stack status hrun =>
      have hchange := StackOp.run_change sh.stack op
      rw [hrun] at hchange
      cases hchange with
      | refused job hfin => exact .leak job rfl hfin rfl rfl
  | wait => exact .release trivial id rfl
  | leave => exact .work trivial trivial rfl fun op hop ↦ by cases hop
  | spurious => exact .apart id id rfl rfl
  | relock _ hfree =>
      exact .acquire id trivial hfree rfl rfl fun op hop ↦ by cases hop
  | unlock => exact .release trivial id rfl

/-- The runs in which no `job_stack_push` takes the mutex once `finished` is set. -/
def PushBeforeFinish (s : StackState α) : StackLabel α → Prop
  | .advance t => ∀ job, s.pcs t = .lock (.push job) → s.shared.stack.finished = false
  | _ => True

/-- The owner of the mutex is the thread at a line that owns it, and a push owns it only
before the finish signal. -/
structure MutexOwned (s : StackState α) : Prop where
  owner : ∀ t, s.shared.mutex = some t ↔ (s.pcs t).Inside
  pushing : ∀ t job, s.pcs t = .body (.push job) → s.shared.stack.finished = false

theorem StackOp.enter_not_inside (op : StackOp α) : ¬ op.enter.Inside := by
  cases op <;> exact id

theorem StackPc.Outside.not_inside {pc : StackPc α} (h : pc.Outside) : ¬ pc.Inside := by
  cases pc <;> simp_all [Outside, Inside]

theorem MutexOwned.others_outside {s : StackState α} (hs : MutexOwned s) {t u : ℕ}
    (hu : s.shared.mutex = none ∨ s.shared.mutex = some t) (hne : u ≠ t) :
    ¬ (s.pcs u).Inside := by
  intro hin
  have hown := (hs.owner u).mpr hin
  rcases hu with hnone | ht
  · simp [hnone] at hown
  · rw [hown] at ht
    exact hne (Option.some.inj ht)

/-- A step of thread `t` keeps the ownership: one case for each thing a step can do with
the mutex. -/
theorem MutexOwned.advance {s : StackState α} (hs : MutexOwned s) {t : ℕ}
    (hguard : PushBeforeFinish s (.advance t)) {sh' : StackShared α} {pc' : StackPc α}
    (h : MutexChange t s.shared (s.pcs t) sh' pc') (held : ℕ → Option α) :
    MutexOwned ⟨sh', Function.update s.pcs t pc', held⟩ := by
  cases h with
  | apart hpc hpc' hmutex hstack =>
      constructor
      · intro u
        by_cases hu : u = t
        · subst hu
          simpa [hmutex, hs.owner, hpc'] using hpc
        · simpa [hu, hmutex] using hs.owner u
      · intro u job hu
        by_cases hut : u = t
        · subst hut
          simp only [Function.update_self] at hu
          simp [hu, StackPc.Inside] at hpc'
        · simp only [Function.update_of_ne hut] at hu
          simpa [hstack] using hs.pushing u job hu
  | acquire hpc hpc' hfree hmutex hstack hbody =>
      constructor
      · intro u
        by_cases hu : u = t
        · subst hu
          simp [hmutex, hpc']
        · have := hs.others_outside (t := t) (.inl hfree) hu
          simp [hu, hmutex, Ne.symm hu, this]
      · intro u job hu
        by_cases hut : u = t
        · subst hut
          simp only [Function.update_self] at hu
          simpa [hstack] using hguard job (hbody _ hu)
        · simp only [Function.update_of_ne hut] at hu
          simpa [hstack] using hs.pushing u job hu
  | work hpc hpc' hmutex hbody =>
      have hown := (hs.owner t).mpr hpc
      constructor
      · intro u
        by_cases hu : u = t
        · subst hu
          simp [hmutex, hown, hpc']
        · simpa [hu, hmutex] using hs.owner u
      · intro u job hu
        by_cases hut : u = t
        · subst hut
          simp only [Function.update_self] at hu
          exact absurd hu (hbody _)
        · simp only [Function.update_of_ne hut] at hu
          have := hs.others_outside (.inr hown) hut
          simp [hu, StackPc.Inside] at this
  | release hpc hpc' hmutex =>
      have hown := (hs.owner t).mpr hpc
      constructor
      · intro u
        by_cases hu : u = t
        · subst hu
          simp [hmutex, hpc']
        · have := hs.others_outside (.inr hown) hu
          simp [hu, hmutex, this]
      · intro u job hu
        by_cases hut : u = t
        · subst hut
          simp only [Function.update_self] at hu
          simp [hu, StackPc.Inside] at hpc'
        · simp only [Function.update_of_ne hut] at hu
          have := hs.others_outside (.inr hown) hut
          simp [hu, StackPc.Inside] at this
  | leak job hpc hfin =>
      rw [hs.pushing t job hpc] at hfin
      cases hfin

theorem mutexOwned_reachable {s : StackState α}
    (hs : ((jobStackSystem α maxJobs reserveSlots).guarded PushBeforeFinish).Reachable s) :
    MutexOwned s := by
  refine System.reachable_induction (I := MutexOwned) ?_ ?_ hs
  · rintro s rfl
    exact ⟨by simp [stackInit, StackPc.Inside], by simp [stackInit]⟩
  · rintro s a s' ih ⟨hguard, h⟩
    cases h with
    | @start t op hout =>
        constructor
        · intro u
          by_cases hu : u = t
          · subst hu
            simpa [ih.owner, op.enter_not_inside] using hout.not_inside
          · simpa [hu] using ih.owner u
        · intro u job hu
          by_cases hut : u = t
          · subst hut
            simp only [Function.update_self] at hu
            exact absurd (hu ▸ trivial) op.enter_not_inside
          · simp only [Function.update_of_ne hut] at hu
            exact ih.pushing u job hu
    | drop => exact ⟨ih.owner, ih.pushing⟩
    | advance h => exact ih.advance hguard h.mutexChange _

/-! ## The owner lets go -/

theorem exists_woken (ws : Cond → Finset ℕ) (wake : Wake) : ∃ ws', Woken ws wake ws' := by
  cases wake with
  | nobody => exact ⟨ws, .nobody⟩
  | signal c => exact ⟨_, .signal ∅ (Finset.empty_subset _) fun hne ↦ hne.ne_empty.symm⟩
  | broadcast c => exact ⟨_, .broadcast⟩

/-- From a line that owns the mutex the owner alone reaches a state where it is free. -/
theorem MutexOwned.owner_releases {s : StackState α} (hs : MutexOwned s) {u : ℕ}
    (hin : (s.pcs u).Inside) :
    ∃ labels s', (∀ l ∈ labels, l = StackLabel.advance u) ∧
      (jobStackSystem α maxJobs reserveSlots).Run s labels s' ∧ s'.shared.mutex = none := by
  have hunlock : ∀ {s : StackState α} {op : StackOp α} {status : Status} {out : Option α},
      s.pcs u = .unlock op status out →
      ∃ s', (jobStackSystem α maxJobs reserveSlots).Run s [.advance u] s' ∧
        s'.shared.mutex = none := by
    intro s op status out hpc
    exact ⟨_, .cons (.of_pc _ hpc .unlock) (.nil _), rfl⟩
  cases hpc : s.pcs u with
  | unlock op status out =>
      obtain ⟨s', hrun, hfree⟩ := hunlock hpc
      exact ⟨_, s', by simp, hrun, hfree⟩
  | body op =>
      cases hrun : op.run s.shared.stack with
      | mk stack wake exit =>
          have hchange := StackOp.run_change s.shared.stack op
          rw [hrun] at hchange
          cases exit with
          | keep status =>
              cases hchange with
              | refused job hfin => simp [hs.pushing u job hpc] at hfin
          | wait c =>
              have hnobody : wake = .nobody := by cases hchange <;> rfl
              subst hnobody
              exact ⟨[.advance u], _, by simp, .cons (.of_pc _ hpc (.wait hrun)) (.nil _), rfl⟩
          | unlock status out =>
              obtain ⟨waiters, hwake⟩ := exists_woken s.shared.waiters wake
              have hleave := StackRunStep.of_pc _ hpc (.leave hrun hwake)
              obtain ⟨s', hrest, hfree⟩ := hunlock
                (s := ⟨⟨stack, s.shared.mutex, waiters⟩,
                  Function.update s.pcs u (.unlock op status out),
                  Function.update s.held u
                    (handAfter (s.held u) (.body op) (.unlock op status out))⟩)
                (Function.update_self u _ _)
              exact ⟨[.advance u, .advance u], s', by simp, .cons hleave hrest, hfree⟩
  | _ => simp [hpc, StackPc.Inside] at hin

/-- The thread cannot go on before it gets the mutex. -/
def AwaitsMutex (s : StackState α) (t : ℕ) : Prop :=
  match s.pcs t with
  | .lock _ => True
  | .waiting c _ => t ∉ s.shared.waiters c
  | _ => False

/-- No thread owns the mutex outside the operations, and whoever waits for it waits for
a thread that is inside one and lets go by its own next steps. -/
def MutexReleased (S : System (StackState α) (StackLabel α)) (s : StackState α) : Prop :=
  (∀ t, (s.pcs t).Outside → s.shared.mutex ≠ some t) ∧
    ∀ t, AwaitsMutex s t → s.shared.mutex = none ∨
      ∃ u, s.shared.mutex = some u ∧ ¬ (s.pcs u).Outside ∧
        ∃ labels s', (∀ l ∈ labels, l = StackLabel.advance u) ∧ S.Run s labels s' ∧
          s'.shared.mutex = none

/-- As long as every push takes the mutex before the finish signal, every operation gives
the mutex back. -/
theorem mutexReleased_of_pushBeforeFinish {s : StackState α}
    (hs : ((jobStackSystem α maxJobs reserveSlots).guarded PushBeforeFinish).Reachable s) :
    MutexReleased (jobStackSystem α maxJobs reserveSlots) s := by
  have howned := mutexOwned_reachable hs
  constructor
  · intro t hout hmutex
    exact hout.not_inside ((howned.owner t).mp hmutex)
  · intro t _
    cases hmutex : s.shared.mutex with
    | none => exact .inl rfl
    | some u =>
        have hin := (howned.owner u).mp hmutex
        exact .inr ⟨u, rfl, fun hout ↦ hout.not_inside hin, howned.owner_releases hin⟩

/-- A pop inside the mutex while the finish signal waits for it. -/
theorem mutexReleased_pop_and_signal :
    MutexReleased (jobStackSystem ℕ 1 1)
      { shared := ⟨jobStackConstruct 1 1, some 0, fun _ ↦ ∅⟩
        pcs := Function.update (Function.update (Function.update (fun _ ↦ .idle) 0
          (.lock .pop)) 0 (.body .pop)) 1 (.lock .signalFinish)
        held := Function.update (fun _ ↦ none) 0 none } := by
  have hinit : ((jobStackSystem ℕ 1 1).guarded PushBeforeFinish).Reachable (stackInit 1 1) :=
    .init rfl
  have hpop := hinit.step_guarded (.start (t := 0) .pop trivial) trivial
  have hlock := hpop.step_guarded (.of_pc (t := 0) (.lock .pop) rfl (.lock rfl))
    fun _ h ↦ by simp [StackOp.enter] at h
  exact mutexReleased_of_pushBeforeFinish
    (hlock.step_guarded (.start (t := 1) .signalFinish trivial) trivial)

/-! ## A push after the finish signal -/

/-- Thread `t` owns the mutex although no thread is at a line that owns it. -/
def Leaked (t : ℕ) (s : StackState α) : Prop :=
  s.shared.mutex = some t ∧ ∀ u, ¬ (s.pcs u).Inside

/-- Once a thread has left with the mutex, no step of any thread frees it. -/
theorem Leaked.step {t : ℕ} {s s' : StackState α} {label : StackLabel α} (hs : Leaked t s)
    (h : StackRunStep s label s') : Leaked t s' := by
  obtain ⟨hmutex, hnobody⟩ := hs
  have hupdate : ∀ {u : ℕ} {pc' : StackPc α}, ¬ pc'.Inside →
      ∀ v, ¬ (Function.update s.pcs u pc' v).Inside := by
    intro u pc' hpc' v
    by_cases hv : v = u
    · subst hv
      simpa using hpc'
    · simpa [hv] using hnobody v
  cases h with
  | start op => exact ⟨hmutex, hupdate op.enter_not_inside⟩
  | drop => exact ⟨hmutex, hnobody⟩
  | advance h =>
      cases h.mutexChange with
      | apart _ hpc' hsame => exact ⟨hsame.trans hmutex, hupdate hpc'⟩
      | acquire _ _ hfree => simp [hfree] at hmutex
      | work hpc => exact absurd hpc (hnobody _)
      | release hpc => exact absurd hpc (hnobody _)
      | leak job hpc => exact absurd (by rw [hpc]; trivial) (hnobody _)

theorem Leaked.run {t : ℕ} {s s' : StackState α} {labels : List (StackLabel α)}
    (hs : Leaked t s) (h : (jobStackSystem α maxJobs reserveSlots).Run s labels s') :
    Leaked t s' := by
  induction h with
  | nil => exact hs
  | cons h _ ih => exact ih (hs.step h)

/-- A push that takes the mutex after the finish signal returns with it for good. -/
theorem push_after_finish_leaks {s : StackState α} (hs : MutexOwned s) {t : ℕ} {job : α}
    (hpc : s.pcs t = .lock (.push job)) (hfree : s.shared.mutex = none)
    (hfin : s.shared.stack.finished = true) :
    ∃ s', (jobStackSystem α maxJobs reserveSlots).Run s [.advance t, .advance t] s' ∧
      (s'.pcs t).Outside ∧ Leaked t s' := by
  have hlock : (jobStackSystem α maxJobs reserveSlots).Step s (.advance t) _ :=
    .of_pc _ hpc (.lock hfree)
  have hpush : (StackOp.push job).run s.shared.stack =
      ⟨s.shared.stack, .nobody, .keep .finished⟩ := by
    simp [StackOp.run, jobStackPush, hfin]
  refine ⟨_, .cons hlock (.cons (.of_pc _ (Function.update_self t _ _) (.keep hpush)) (.nil _)),
    by simp [StackPc.Outside], rfl, ?_⟩
  intro u
  by_cases hu : u = t
  · subst hu
    simp [StackPc.Inside]
  · simpa [hu] using hs.others_outside (t := t) (.inl hfree) hu

/-- Thread 0 signals the end, thread 1 then pushes: it is outside and owns the mutex, and
thread 2 waits for the mutex in vain. -/
theorem not_mutexReleased_always :
    ¬ ∀ s, (jobStackSystem ℕ 1 1).Reachable s → MutexReleased (jobStackSystem ℕ 1 1) s := by
  intro hall
  have hinit : (jobStackSystem ℕ 1 1).Reachable (stackInit 1 1) := .init rfl
  have hcall := hinit.step (.start (t := 0) .signalFinish trivial)
  have hfinish : (StackOp.signalFinish : StackOp ℕ).run (jobStackConstruct 1 1) =
      ⟨{ jobStackConstruct 1 1 with finished := true }, .broadcast .notEmpty,
        .unlock .success none⟩ := rfl
  have hrefused : (StackOp.push 7 : StackOp ℕ).run
      { jobStackConstruct 1 1 with finished := true } =
      ⟨{ jobStackConstruct 1 1 with finished := true }, .nobody, .keep .finished⟩ := rfl
  have hlock := hcall.step (.of_pc (t := 0) (.lock .signalFinish) rfl (.lock rfl))
  have hleave := hlock.step (.of_pc (t := 0) (.body .signalFinish) rfl (.leave hfinish .broadcast))
  have hunlock := hleave.step (.of_pc (t := 0) (.unlock .signalFinish .success none) rfl .unlock)
  have hpush := hunlock.step (.start (t := 1) (.push 7) trivial)
  have hlock' := hpush.step (.of_pc (t := 1) (.lock (.push 7)) rfl (.lock rfl))
  have hkeep := hlock'.step (.of_pc (t := 1) (.body (.push 7)) rfl (.keep hrefused))
  have hpop := hkeep.step (.start (t := 2) .pop trivial)
  exact (hall _ hpop).1 1 trivial rfl

end HttpProxy
