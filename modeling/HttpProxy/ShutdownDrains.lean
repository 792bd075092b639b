import HttpProxy.JobHistory
import HttpProxy.WorkerRoles

/-!
# Shutdown drains the stack

Consumers that push jobs back onto the stack they pop from.  A job is pushed back late if
its consumer read `finished` before the signal, but that consumer has not stopped: it pops
again, and a stack is left for good only by a consumer that finds it empty after the
signal.
-/

namespace HttpProxy

open Transition

section Accounted

variable {ι : Type} [DecidableEq ι] {s s' : PoolState ι} {t job : ℕ}

/-- The job has been destructed, is on a stack or has been popped. -/
def Accounted (s : PoolState ι) (job : ℕ) : Prop :=
  .destructed job ∈ s.log ∨ (∃ i index, s.holds (.slot i index) = some job) ∨
    ∃ t, s.holds (.current t) = some job

omit [DecidableEq ι] in
theorem Accounted.frame (h : Accounted s job) {events : List JobEvent}
    (hlog : s'.log = s.log ++ events)
    (hslots : ∀ i index, s.holds (.slot i index) = some job → Accounted s' job)
    (hcurrent : ∀ t, s.holds (.current t) = some job → Accounted s' job) : Accounted s' job := by
  rcases h with hgone | ⟨i, index, hslot⟩ | ⟨t, ht⟩
  · exact .inl (by simp [hlog, hgone])
  · exact hslots i index hslot
  · exact hcurrent t ht

/-- A job that was accounted for still is: one case for each thing a step can do. -/
theorem PoolChange.accounted (h : PoolChange t s s') (hs : Accounted s job) :
    Accounted s' job := by
  have hslot : ∀ (i : ι) (index : ℤ), s'.holds (.slot i index) = some job → Accounted s' job :=
    fun i index h ↦ .inr (.inl ⟨i, index, h⟩)
  have hcur : ∀ u, s'.holds (.current u) = some job → Accounted s' job :=
    fun u h ↦ .inr (.inr ⟨u, h⟩)
  cases h with
  | keep hholds hnext hlog =>
      exact hs.frame (by simpa using hlog : s'.log = s.log ++ [])
        (fun i index h ↦ hslot i index (by rw [hholds, h])) fun u h ↦ hcur u (by rw [hholds, h])
  | construct event hevent hempty hholds hnext hlog =>
      exact hs.frame hlog (fun i index h ↦ hslot i index (by simpa [hholds] using h))
        fun u h ↦ hcur u (by simpa [hholds] using h)
  | forget i₀ job₀ status out rest hpc hholds hnext hlog =>
      exact hs.frame (by simpa using hlog : s'.log = s.log ++ [])
        (fun i index h ↦ hslot i index (by simpa [hholds] using h))
        fun u h ↦ hcur u (by simpa [hholds] using h)
  | push i index job' hfrom hempty hholds hnext hlog =>
      refine hs.frame hlog (fun i' index' h ↦ ?_) fun u h ↦ hcur u (by simpa [hholds] using h)
      have hother : (Place.slot i' index' : Place ι) ≠ .slot i index := by
        intro hhere
        simp [hhere, hempty] at h
      apply hslot i' index'
      rw [hholds, Function.update_of_ne hother, Function.update_of_ne (by simp), h]
  | pushBack i job' hfrom hempty hholds hnext hlog =>
      refine hs.frame hlog (fun i' index' h ↦ ?_) fun u h ↦ ?_
      · by_cases hi : i' = i
        · subst hi
          -- the slot is the source of the one above it
          have hother : (Place.slot i' (index' + 1) : Place ι) ≠ .slot i' 0 := by
            intro hhere
            have hlast : index' + 1 = 0 := by simpa using hhere
            obtain rfl : index' = -1 := by omega
            simp [hempty] at h
          apply hslot i' (index' + 1)
          rw [hholds, Function.update_of_ne hother, Function.update_of_ne (by simp)]
          simpa [Place.below] using h
        · have hother : (Place.slot i' index' : Place ι) ≠ .slot i 0 := by simp [hi]
          apply hslot i' index'
          rw [hholds, Function.update_of_ne hother, Function.update_of_ne (by simp)]
          simpa [Place.below, hi] using h
      · by_cases hu : u = t
        · subst hu
          obtain rfl : job' = job := by simpa [hfrom] using h
          exact hslot i 0 (by rw [hholds, Function.update_self])
        · exact hcur u (by simpa [hholds, hu, Place.below] using h)
  | pop i index job' hfrom hempty hholds hnext hlog =>
      refine hs.frame hlog (fun i' index' h ↦ ?_) fun u h ↦ ?_
      · by_cases hhere : (Place.slot i' index' : Place ι) = .slot i index
        · obtain rfl : job' = job := by simpa [hhere, hfrom] using h
          exact hcur t (by rw [hholds, Function.update_self])
        · apply hslot i' index'
          rw [hholds, Function.update_of_ne (by simp), Function.update_of_ne hhere, h]
      · have hu : u ≠ t := by
          rintro rfl
          simp [hempty] at h
        exact hcur u (by simpa [hholds, hu] using h)
  | process job' hcurrent hholds hnext hlog =>
      exact hs.frame hlog (fun i index h ↦ hslot i index (by rw [hholds, h]))
        fun u h ↦ hcur u (by rw [hholds, h])
  | destruct job' hcurrent hholds hnext hlog =>
      refine hs.frame hlog (fun i index h ↦ hslot i index (by simpa [hholds] using h)) fun u h ↦ ?_
      by_cases hu : u = t
      · subst hu
        obtain rfl : job' = job := by simpa [hcurrent] using h
        exact .inl (by simp [hlog])
      · exact hcur u (by simpa [hholds, hu] using h)

end Accounted

/-! ## One stack -/

/-- The consumers of one stack and the producers that fill it. -/
def stackConfig (role : ℕ → Role Unit) (process : Job → Processing → Prop) : PoolConfig Unit where
  role := role
  client := ()
  prefetch := ()
  process := process

/-- The operation is a pop that has found the stack finished. -/
def StackPc.FoundEmpty : StackPc ℕ → Prop
  | .unlock .pop .finished _ => True
  | .returned .pop .finished _ => True
  | _ => False

/-- The consumer has been told that the stack is finished. -/
def PoolPc.Done : PoolPc Unit → Prop
  | .stopped => True
  | .inside _ pc _ => pc.FoundEmpty
  | _ => False

/-- All that a step inside an operation can do to `top`, to `finished` and to what the
thread knows of them. -/
inductive EmptyChange (sh sh' : StackShared ℕ) (pc pc' : StackPc ℕ) : Prop
  | quiet (htop : sh'.stack.top = sh.stack.top) (hfin : sh'.stack.finished = sh.stack.finished)
      (hback : pc'.FoundEmpty → pc.FoundEmpty)
  | found (htop : sh'.stack.top = 0) (hfin : sh'.stack.finished = true)
  | signalled (hpc' : ¬pc'.FoundEmpty) (htop : sh'.stack.top = sh.stack.top)
      (hfin : sh'.stack.finished = true)
  | pushed (hpc' : ¬pc'.FoundEmpty) (hopen : sh.stack.finished = false)
  | popped (hpc' : ¬pc'.FoundEmpty) (hsome : sh.stack.top ≠ 0)
  | pushedBack (job : ℕ) (hpc : pc.called = some (.pushBack job)) (hpc' : ¬pc'.FoundEmpty)

theorem StackStep.emptyChange {t : ℕ} {sh sh' : StackShared ℕ} {pc pc' : StackPc ℕ}
    (h : StackStep t sh pc sh' pc') : EmptyChange sh sh' pc pc' := by
  cases h with
  | @keep op stack status hrun =>
      have hchange := StackOp.run_change sh.stack op
      rw [hrun] at hchange
      cases hchange with
      | refused => exact .quiet rfl rfl id
  | @wait op stack c hrun =>
      have hchange := StackOp.run_change sh.stack op
      rw [hrun] at hchange
      cases hchange with
      | full => exact .quiet rfl rfl id
      | empty => exact .quiet rfl rfl id
  | @leave op stack wake status out waiters hrun =>
      have hchange := StackOp.run_change sh.stack op
      rw [hrun] at hchange
      cases hchange with
      | pushed _ hopen => exact .pushed id hopen
      | pushedBack job => exact .pushedBack job rfl id
      | drained htop hfin => exact .found htop hfin
      | popped hsome => exact .popped id hsome
      | signalled => exact .signalled id rfl rfl
  | @relock op => exact .quiet rfl rfl (by cases op <;> exact id)
  | @unlock op status => exact .quiet rfl rfl (by cases op <;> cases status <;> exact id)
  | _ => exact .quiet rfl rfl id

def AllConsumers (role : ℕ → Role Unit) (s : PoolState Unit) (P : PoolPc Unit → Prop) : Prop :=
  ∀ t, role t = .worker () → P (s.threads t).pc

variable {role : ℕ → Role Unit} {process : Job → Processing → Prop} {s s' : PoolState Unit}
  {t : ℕ}

/-- When the last consumer was told so, the stack was empty, and it has stayed so. -/
def DoneEmpty (role : ℕ → Role Unit) (s : PoolState Unit) : Prop :=
  AllConsumers role s PoolPc.Done →
    (s.jobStacks ()).stack.finished = true ∧ (s.jobStacks ()).stack.top = 0

theorem AllConsumers.before (h : PoolStep (stackConfig role process) t s s')
    (hdone : AllConsumers role s' PoolPc.Done)
    (hback : role t = .worker () → (s'.threads t).pc.Done → (s.threads t).pc.Done) :
    AllConsumers role s PoolPc.Done := by
  intro u hu
  have hthen := hdone u hu
  by_cases hut : u = t
  · subst hut
    exact hback hu hthen
  · rwa [h.threads_ne hut] at hthen

/-- A step inside an operation: one case for each thing it can do to the stack. -/
theorem DoneEmpty.inside {i : Unit} {rest : Option (Status → Processing)} {pc pc' : StackPc ℕ}
    {shared : StackShared ℕ} (hs : DoneEmpty role s)
    (hstep : PoolStep (stackConfig role process) t s (s.move t i rest pc pc' shared))
    (hplays : Plays (stackConfig role process) (role t) (s.threads t).pc)
    (hpc : (s.threads t).pc = .inside i pc rest)
    (h : StackStep t (s.jobStacks i) pc shared pc') :
    DoneEmpty role (s.move t i rest pc pc' shared) := by
  intro hdone
  have hthread : ((s.move t i rest pc pc' shared).threads t).pc = .inside i pc' rest := by
    simp [PoolState.move]
  have hstack : (s.move t i rest pc pc' shared).jobStacks () = shared := by
    simp [PoolState.move]
  -- a consumer in this step has not been told, so it was no consumer
  have hothers : ¬pc'.FoundEmpty →
      (s.jobStacks ()).stack.finished = true ∧ (s.jobStacks ()).stack.top = 0 := by
    intro hnot
    refine hs (hdone.before hstep fun _ hfound ↦ ?_)
    rw [hthread] at hfound
    exact absurd hfound hnot
  rw [hstack]
  cases h.emptyChange with
  | quiet htop hfin hback =>
      have hbefore := hs (hdone.before hstep fun _ hfound ↦ by
        rw [hthread] at hfound
        rw [hpc]
        exact hback hfound)
      exact ⟨hfin.trans hbefore.1, htop.trans hbefore.2⟩
  | found htop hfin => exact ⟨hfin, htop⟩
  | signalled hpc' htop hfin => exact ⟨hfin, htop.trans (hothers hpc').2⟩
  | pushed hpc' hopen =>
      have hfin := (hothers hpc').1
      rw [hopen] at hfin
      cases hfin
  | popped hpc' hsome => exact absurd (hothers hpc').2 hsome
  | pushedBack job hcalled hpc' =>
      rw [hpc] at hplays
      obtain ⟨-, source, hrole⟩ := hplays.worker_of_pushBack hcalled
      have hfound := hdone t hrole
      rw [hthread] at hfound
      exact absurd hfound hpc'

theorem DoneEmpty.quiet (hs : DoneEmpty role s) (h : PoolStep (stackConfig role process) t s s')
    (hstacks : s'.jobStacks = s.jobStacks)
    (hback : (s'.threads t).pc.Done → (s.threads t).pc.Done) : DoneEmpty role s' := by
  intro hdone
  rw [hstacks]
  exact hs (hdone.before h fun _ ↦ hback)

theorem DoneEmpty.step (hs : DoneEmpty role s)
    (hplays : Plays (stackConfig role process) (role t) (s.threads t).pc)
    (h : PoolStep (stackConfig role process) t s s') : DoneEmpty role s' := by
  have hstep := h
  cases h with
  | inside hpc h => exact hs.inside hstep hplays hpc h
  | finished hpc => exact hs.quiet hstep rfl fun _ ↦ by rw [hpc]; trivial
  | _ =>
      exact hs.quiet hstep rfl fun hdone ↦ by
        simp [PoolState.setPc, PoolState.setThread, PoolState.construct, PoolState.destruct,
          PoolState.forget, PoolPc.Done, StackPc.FoundEmpty] at hdone

/-- The stack is empty and whatever was pushed has been destructed. -/
def Drained (s : PoolState Unit) : Prop :=
  (s.jobStacks ()).stack.top = 0 ∧ ∀ job, .pushed job ∈ s.log → .destructed job ∈ s.log

theorem PoolChange.pushed_accounted (h : PoolChange t s s')
    (hs : ∀ job, .pushed job ∈ s.log → Accounted s job) {job : ℕ}
    (hjob : .pushed job ∈ s'.log) : Accounted s' job := by
  by_cases hold : .pushed job ∈ s.log
  · exact h.accounted (hs job hold)
  · cases h with
    | push i index job' hfrom hempty hholds hnext hlog =>
        obtain rfl : job = job' := by simpa [hlog, hold] using hjob
        exact .inr (.inl ⟨i, index, by rw [hholds, Function.update_self]⟩)
    | construct event hevent hempty hholds hnext hlog =>
        rcases hevent with rfl | rfl <;> simp [hlog, hold] at hjob
    | keep hholds hnext hlog => exact absurd (hlog ▸ hjob) hold
    | forget i₀ job₀ status out rest hpc hholds hnext hlog => exact absurd (hlog ▸ hjob) hold
    | pushBack i job' hfrom hempty hholds hnext hlog => simp [hlog, hold] at hjob
    | pop i index job' hfrom hempty hholds hnext hlog => simp [hlog, hold] at hjob
    | process job' hcurrent hholds hnext hlog => simp [hlog, hold] at hjob
    | destruct job' hcurrent hholds hnext hlog => simp [hlog, hold] at hjob

theorem pushed_accounted_reachable {maxJobs reserveSlots : Unit → ℤ}
    (hs : (workerPool (stackConfig role process) maxJobs reserveSlots).Reachable s) :
    ∀ job, .pushed job ∈ s.log → Accounted s job := by
  refine System.Preserves.reachable (K := JobsOwned)
    (I := fun s ↦ ∀ job, .pushed job ∈ s.log → Accounted s job) ⟨?_, ?_⟩
    (fun _ ↦ jobsOwned_reachable) hs
  · rintro s rfl job hjob
    simp [poolInit] at hjob
  · intro s t s' howned ih h job hjob
    exact (PoolStep.change howned.fits h).pushed_accounted ih hjob

theorem doneEmpty_reachable (hconsumer : ∃ t, role t = .worker ())
    {maxJobs reserveSlots : Unit → ℤ}
    (hs : (workerPool (stackConfig role process) maxJobs reserveSlots).Reachable s) :
    DoneEmpty role s := by
  induction hs with
  | init h =>
      subst h
      intro hdone
      obtain ⟨t, ht⟩ := hconsumer
      exact (hdone t ht).elim
  | @step s s' t hr h ih => exact ih.step (plays_reachable hr t) h

/-- `main` never has a popped job in its hands. -/
theorem MainPlays.current_eq_none {ι : Type} {cfg : PoolConfig ι} {thread : PoolThread ι}
    (h : MainPlays cfg thread.pc) (hfits : thread.Fits) : thread.current = none := by
  obtain ⟨pc, current, fresh⟩ := thread
  cases pc with
  | idle => exact hfits.1
  | working code => exact h.elim
  | stopped => exact h.elim
  | inside i pc rest =>
      obtain ⟨rfl, hcalled⟩ := h
      have hrest : ∀ {job : ℕ}, OpFits current fresh none (.push job) → current = none :=
        fun h ↦ by simpa using h.2.symm
      cases pc with
      | idle => exact hfits.elim
      | testFinished job => simp [StackPc.called] at hcalled
      | unlock op status out | returned op status out =>
          rcases hcalled with ⟨⟨job, hop⟩, -⟩ | hop
          · cases hop
            simpa using (hfits : ResultFits current fresh none (.push job) status out).2.symm
          · cases hop
            exact (hfits : ResultFits current fresh none .signalFinish status out).1
      | lock op | body op | waiting _ op =>
          rcases hcalled with ⟨⟨job, hop⟩, -⟩ | hop
          · cases hop
            exact hrest hfits
          · cases hop
            exact (hfits : OpFits current fresh none .signalFinish).1

/-- With a consumer at all, the consumers do not stop before everything is drained. -/
theorem shutdown_drains (hconsumer : ∃ t, role t = .worker ()) {maxJobs reserveSlots : Unit → ℤ}
    (hs : (workerPool (stackConfig role process) maxJobs reserveSlots).Reachable s)
    (hstopped : AllConsumers role s fun pc ↦ pc = .stopped) : Drained s := by
  have hfits := (jobsOwned_reachable hs).fits
  have hdone : AllConsumers role s PoolPc.Done := by
    intro t ht
    rw [hstopped t ht]
    trivial
  have hempty := (doneEmpty_reachable hconsumer hs hdone).2
  refine ⟨hempty, fun job hjob ↦ ?_⟩
  rcases pushed_accounted_reachable hs job hjob with hgone | ⟨⟨⟩, index, hslot⟩ | ⟨t, ht⟩
  · exact hgone
  · have hnone : (s.jobStacks ()).stack.slot index = none := if_neg (by omega)
    exact absurd (hnone.symm.trans hslot) (by simp)
  · have hnone : (s.threads t).current = none := by
      have hplays := plays_reachable hs t
      cases hrole : role t with
      | main =>
          rw [show (stackConfig role process).role t = .main from hrole] at hplays
          exact MainPlays.current_eq_none hplays (hfits.threads t)
      | worker source => exact (hfits.at (hstopped t hrole)).1
    exact absurd (hnone.symm.trans ht) (by simp)

/-- A consumer that destructs the one job it gets and is then told to stop. -/
theorem shutdown_drains_oneJob :
    ∃ s : PoolState Unit, s.log = [.accepted 0, .pushed 0, .popped 0, .processed 0, .destructed 0] ∧
      (s.threads 1).pc = .stopped ∧ Drained s := by
  have hone : ∀ s : PoolState Unit, (s.threads 1).pc = .stopped →
      AllConsumers (fun t ↦ if t = 1 then .worker () else .main) s fun pc ↦ pc = .stopped := by
    intro s hpc t ht
    obtain rfl : t = 1 := by
      by_contra hne
      simp [hne] at ht
    exact hpc
  have hinit : (workerPool (stackConfig (fun t ↦ if t = 1 then .worker () else .main)
      fun job code ↦ code = .ret (.terminate, job)) (fun _ ↦ 1) (fun _ ↦ 1)).Reachable _ :=
    .init rfl
  have haccept := hinit.step (.accept (t := 0) 5 rfl rfl)
  have hlock := haccept.step (.inside (t := 0) rfl (.lock rfl))
  have hpush := hlock.step (.inside (t := 0) rfl
    (.leave rfl (.signal ∅ (Finset.empty_subset _) fun h ↦ h.ne_empty.symm)))
  have hunlock := hpush.step (.inside (t := 0) rfl .unlock)
  have haccepted := hunlock.step (.accepted (t := 0) rfl (by simp))
  have hpoll := haccepted.step (.poll (t := 1) rfl rfl)
  have hlock₁ := hpoll.step (.inside (t := 1) rfl (.lock rfl))
  have hpop := hlock₁.step (.inside (t := 1) rfl
    (.leave rfl (.signal ∅ (Finset.empty_subset _) fun h ↦ h.ne_empty.symm)))
  have hunlock₁ := hpop.step (.inside (t := 1) rfl .unlock)
  have hprocess := hunlock₁.step (.process (t := 1) rfl rfl)
  have hdestruct := hprocess.step (.terminate (t := 1) rfl rfl)
  have hsignal := hdestruct.step (.signal (t := 0) () rfl rfl)
  have hlock₂ := hsignal.step (.inside (t := 0) rfl (.lock rfl))
  have hfinish := hlock₂.step (.inside (t := 0) rfl (.leave rfl .broadcast))
  have hunlock₂ := hfinish.step (.inside (t := 0) rfl .unlock)
  have hpoll₃ := hunlock₂.step (.poll (t := 1) rfl rfl)
  have hlock₃ := hpoll₃.step (.inside (t := 1) rfl (.lock rfl))
  have hempty := hlock₃.step (.inside (t := 1) rfl (.leave rfl .nobody))
  have hunlock₃ := hempty.step (.inside (t := 1) rfl .unlock)
  have hstopped := hunlock₃.step (.finished (t := 1) rfl)
  exact ⟨_, rfl, rfl, shutdown_drains ⟨1, rfl⟩ hstopped (hone _ rfl)⟩

/-- Without a consumer nobody takes the job off the stack. -/
theorem not_shutdown_drains_without_consumers :
    ¬∀ (role : ℕ → Role Unit) (s : PoolState Unit),
      (workerPool (stackConfig role fun job code ↦ code = .ret (.terminate, job)) (fun _ ↦ 1)
        (fun _ ↦ 1)).Reachable s → AllConsumers role s (fun pc ↦ pc = .stopped) → Drained s := by
  intro hall
  have hinit : (workerPool (stackConfig (fun _ ↦ .main)
      fun job code ↦ code = .ret (.terminate, job)) (fun _ ↦ 1) (fun _ ↦ 1)).Reachable _ :=
    .init rfl
  have haccept := hinit.step (.accept (t := 0) 5 rfl rfl)
  have hlock := haccept.step (.inside (t := 0) rfl (.lock rfl))
  have hpush := hlock.step (.inside (t := 0) rfl
    (.leave rfl (.signal ∅ (Finset.empty_subset _) fun h ↦ h.ne_empty.symm)))
  have hunlock := hpush.step (.inside (t := 0) rfl .unlock)
  have haccepted := hunlock.step (.accepted (t := 0) rfl (by simp))
  have hsignal := haccepted.step (.signal (t := 0) () rfl rfl)
  have hlock₁ := hsignal.step (.inside (t := 0) rfl (.lock rfl))
  have hfinish := hlock₁.step (.inside (t := 0) rfl (.leave rfl .broadcast))
  have hunlock₁ := hfinish.step (.inside (t := 0) rfl .unlock)
  have hdrained := hall (fun _ ↦ .main) _ hunlock₁ fun t ht ↦ by cases ht
  exact absurd hdrained.1 (by decide)

end HttpProxy
