import HttpProxy.JobOwnership

/-!
# What happens to a job

The log of a pool of workers, read job by job: a job is popped again only after it was
pushed again, destructed once, and not processed after that.
-/

namespace HttpProxy

open Transition Ownership

variable {ι : Type} [DecidableEq ι] {cfg : PoolConfig ι} {s s' : PoolState ι} {t job : ℕ}
  {log : List JobEvent}

/-- A successful `job_stack_push` or `job_stack_push_back` of the job. -/
def JobEvent.Puts (event : JobEvent) (job : ℕ) : Prop :=
  event = .pushed job ∨ event = .pushedBack job

/-- The job was put on a stack and has not been popped since. -/
def Stacked (log : List JobEvent) (job : ℕ) : Prop :=
  ∃ before event since, log = before ++ event :: since ∧ event.Puts job ∧ .popped job ∉ since

/-- Between two pops of a job somebody has put it back on a stack. -/
def NoDoublePop (log : List JobEvent) : Prop :=
  ∀ before mid after job, log = before ++ .popped job :: mid ++ .popped job :: after →
    ∃ event ∈ mid, event.Puts job

/-- No job is destructed before it is processed. -/
def ProcessedAlive (log : List JobEvent) : Prop :=
  ∀ before after job, log = before ++ .processed job :: after → .destructed job ∉ before

theorem Stacked.append (h : Stacked log job) {events : List JobEvent}
    (hnone : .popped job ∉ events) : Stacked (log ++ events) job := by
  obtain ⟨before, event, since, rfl, hputs, hsince⟩ := h
  exact ⟨before, event, since ++ events, by simp, hputs, by simp [hsince, hnone]⟩

theorem Stacked.here (log : List JobEvent) {event : JobEvent} (h : event.Puts job) :
    Stacked (log ++ [event]) job :=
  ⟨log, event, [], rfl, h, by simp⟩

theorem NoDoublePop.append (h : NoDoublePop log) {event : JobEvent}
    (hpop : ∀ job, event = .popped job → Stacked log job) : NoDoublePop (log ++ [event]) := by
  intro before mid after job hsplit
  rcases split_concat hsplit with ⟨after', hold⟩ | ⟨hlog, hnew⟩
  · exact h before mid after' job hold
  · obtain ⟨before', put, since, rfl, hputs, hsince⟩ := hpop job hnew.symm
    have hne : JobEvent.popped job ≠ put := by
      rcases hputs with rfl | rfl <;> simp
    exact ⟨put, mem_of_split hlog hne hsince, hputs⟩

theorem ProcessedAlive.append (h : ProcessedAlive log) {event : JobEvent}
    (hprocess : ∀ job, event = .processed job → .destructed job ∉ log) :
    ProcessedAlive (log ++ [event]) := by
  intro before after job hsplit
  rcases split_concat hsplit with ⟨after', hold⟩ | ⟨rfl, hnew⟩
  · exact h before after' job hold
  · exact hprocess job hnew.symm

/-- A job on a stack is one that was put there and not popped since; every job was popped,
processed and destructed in order. -/
structure JobHistory (s : PoolState ι) : Prop where
  stacked : ∀ i index job, s.holds (.slot i index) = some job → Stacked s.log job
  pops : NoDoublePop s.log
  once : ∀ job, s.log.count (.destructed job) ≤ 1
  processed : ProcessedAlive s.log

omit [DecidableEq ι] in
theorem JobHistory.of_event (hs : JobHistory s) {event : JobEvent}
    (hlog : s'.log = s.log ++ [event])
    (hstacked : ∀ i index job, s'.holds (.slot i index) = some job →
      Stacked (s.log ++ [event]) job)
    (hpop : ∀ job, event = .popped job → Stacked s.log job)
    (hdestruct : ∀ job, event = .destructed job → .destructed job ∉ s.log)
    (hprocess : ∀ job, event = .processed job → .destructed job ∉ s.log) : JobHistory s' := by
  refine ⟨by rwa [hlog], hlog ▸ hs.pops.append hpop, fun job ↦ ?_,
    hlog ▸ hs.processed.append hprocess⟩
  rw [hlog, List.count_append, List.count_singleton]
  by_cases hevent : event = .destructed job
  · have hnone := List.count_eq_zero.mpr (hdestruct job hevent)
    simp [hnone, hevent]
  · simpa [hevent] using hs.once job

omit [DecidableEq ι] in
/-- A step that leaves the slots alone and pops nothing. -/
theorem JobHistory.stacked_same (hs : JobHistory s) {event : JobEvent}
    (hslots : ∀ i index, s'.holds (.slot i index) = s.holds (.slot i index))
    (hnone : ∀ job, event ≠ .popped job) (i : ι) (index : ℤ) (job : ℕ)
    (h : s'.holds (.slot i index) = some job) : Stacked (s.log ++ [event]) job :=
  (hs.stacked i index job (hslots i index ▸ h)).append (by simpa using (hnone job).symm)

/-- A step of the pool keeps the history: one case for each thing it can do to the jobs. -/
theorem JobHistory.step (hs : JobHistory s) (howned : JobsOwned s) (h : PoolChange t s s') :
    JobHistory s' := by
  cases h with
  | keep hholds hnext hlog =>
      exact ⟨by simpa [hlog, hholds] using hs.stacked, hlog ▸ hs.pops, hlog ▸ hs.once,
        hlog ▸ hs.processed⟩
  | construct event hevent hempty hholds hnext hlog =>
      have hslots : ∀ i index job, s'.holds (.slot i index) = some job →
          Stacked (s.log ++ [event]) job :=
        hs.stacked_same (by simp [hholds]) (by rcases hevent with rfl | rfl <;> simp)
      rcases hevent with rfl | rfl <;> exact hs.of_event hlog hslots (by simp) (by simp) (by simp)
  | forget i₀ job₀ status out rest hpc hholds hnext hlog =>
      exact ⟨by simpa [hlog, hholds] using hs.stacked, hlog ▸ hs.pops, hlog ▸ hs.once,
        hlog ▸ hs.processed⟩
  | push i index job hfrom hempty hholds hnext hlog =>
      refine hs.of_event hlog (fun i' index' job' hslot ↦ ?_) (by simp) (by simp) (by simp)
      by_cases hhere : (Place.slot i' index' : Place ι) = .slot i index
      · obtain rfl : job = job' := by simpa [hholds, hhere] using hslot
        exact .here s.log (.inl rfl)
      · rw [hholds, Function.update_of_ne hhere, Function.update_of_ne (by simp)] at hslot
        exact (hs.stacked i' index' job' hslot).append (by simp)
  | pushBack i job hfrom hempty hholds hnext hlog =>
      refine hs.of_event hlog (fun i' index' job' hslot ↦ ?_) (by simp) (by simp) (by simp)
      by_cases hhere : (Place.slot i' index' : Place ι) = .slot i 0
      · obtain rfl : job = job' := by simpa [hholds, hhere] using hslot
        exact .here s.log (.inr rfl)
      · rw [hholds, Function.update_of_ne hhere, Function.update_of_ne (by simp)] at hslot
        obtain ⟨index'', hbelow⟩ : ∃ index'', s.holds (.slot i' index'') = some job' := by
          by_cases hi : i' = i
          · exact ⟨index' - 1, by simpa [Place.below, hi] using hslot⟩
          · exact ⟨index', by simpa [Place.below, hi] using hslot⟩
        exact (hs.stacked i' index'' job' hbelow).append (by simp)
  | pop i index job hfrom hempty hholds hnext hlog =>
      refine hs.of_event hlog (fun i' index' job' hslot ↦ ?_) ?_ (by simp) (by simp)
      · rw [hholds, Function.update_of_ne (by simp)] at hslot
        have hother : (Place.slot i' index' : Place ι) ≠ .slot i index := by
          intro hhere
          simp [hhere] at hslot
        rw [Function.update_of_ne hother] at hslot
        have hne : job' ≠ job := by
          rintro rfl
          exact hother (howned.exclusive hslot hfrom)
        exact (hs.stacked i' index' job' hslot).append (by simpa using hne)
      · intro job' hjob'
        cases hjob'
        exact hs.stacked i index job hfrom
  | process job hcurrent hholds hnext hlog =>
      apply hs.of_event hlog (hs.stacked_same (by simp [hholds]) (by simp)) (by simp) (by simp)
      intro job' hjob'
      cases hjob'
      exact (howned.alive _ job hcurrent).2
  | destruct job hcurrent hholds hnext hlog =>
      refine hs.of_event hlog (hs.stacked_same (by simp [hholds]) (by simp)) (by simp) ?_ (by simp)
      intro job' hjob'
      cases hjob'
      exact (howned.alive _ job hcurrent).2

theorem jobHistory_reachable {maxJobs reserveSlots : ι → ℤ}
    (hs : (workerPool cfg maxJobs reserveSlots).Reachable s) : JobHistory s := by
  refine System.Preserves.reachable (K := JobsOwned) (I := JobHistory) ⟨?_, ?_⟩
    (fun _ ↦ jobsOwned_reachable) hs
  · rintro s rfl
    refine ⟨?_, by simp [poolInit, NoDoublePop], by simp [poolInit],
      by simp [poolInit, ProcessedAlive]⟩
    intro i index job h
    have hempty : (poolInit maxJobs reserveSlots).holds (.slot i index) = none :=
      if_neg (by simp only [poolInit, jobStackConstruct]; omega)
    simp [hempty] at h
  · intro s t s' howned ih h
    exact ih.step howned (h.change howned.fits)

/-! ## The server -/

/-- The two stacks of `create_shared_resource`. -/
inductive ServerStack where
  | client
  | prefetch
  deriving DecidableEq, Repr

/-- Client and prefetch workers and threads that accept, in any number. -/
def serverConfig (role : ℕ → Role ServerStack) (process : Job → Processing → Prop) :
    PoolConfig ServerStack where
  role := role
  client := .client
  prefetch := .prefetch
  process := process

/-- Every job has one owner at a time and one end. -/
structure ExclusiveOwnership (s : PoolState ι) : Prop where
  onePlace : ∀ p q job, s.holds p = some job → s.holds q = some job → p = q
  pops : NoDoublePop s.log
  once : ∀ job, s.log.count (.destructed job) ≤ 1
  gone : ∀ job, .destructed job ∈ s.log → ∀ p, s.holds p ≠ some job
  processed : ProcessedAlive s.log

/-- Whatever `process_job` does and however the threads interleave, no job is shared. -/
theorem server_jobs_exclusively_owned {role : ℕ → Role ServerStack}
    {process : Job → Processing → Prop} {maxJobs reserveSlots : ServerStack → ℤ}
    {s : PoolState ServerStack}
    (hs : (workerPool (serverConfig role process) maxJobs reserveSlots).Reachable s) :
    ExclusiveOwnership s := by
  have howned := jobsOwned_reachable hs
  have hhistory := jobHistory_reachable hs
  exact
    { onePlace := fun p q job hp hq ↦ howned.exclusive hp hq
      pops := hhistory.pops
      once := hhistory.once
      gone := fun job hdestructed p hp ↦ (howned.alive p job hp).2 hdestructed
      processed := hhistory.processed }

/-- A client's job is accepted, popped by the worker, processed and destructed. -/
theorem server_jobs_exclusively_owned_oneJob :
    ∃ s : PoolState ServerStack, s.log =
      [.accepted 0, .pushed 0, .popped 0, .processed 0, .destructed 0] ∧ ExclusiveOwnership s := by
  have hinit : (workerPool (serverConfig (fun t ↦ if t = 0 then .main else .worker .client)
      fun job code ↦ code = .ret (.terminate, job)) (fun _ ↦ 1) (fun _ ↦ 1)).Reachable _ :=
    .init rfl
  have haccept := hinit.step (.accept (t := 0) 5 rfl rfl)
  have hlock := haccept.step (.inside (t := 0) rfl (.lock rfl))
  have hpush := hlock.step (.inside (t := 0) rfl
    (.leave rfl (.signal ∅ (Finset.empty_subset _) fun h ↦ h.ne_empty.symm)))
  have hunlock := hpush.step (.inside (t := 0) rfl .unlock)
  have hpoll := hunlock.step (.poll (t := 1) (i := .client) rfl rfl)
  have hlock' := hpoll.step (.inside (t := 1) rfl (.lock rfl))
  have hpop := hlock'.step (.inside (t := 1) rfl
    (.leave rfl (.signal ∅ (Finset.empty_subset _) fun h ↦ h.ne_empty.symm)))
  have hunlock' := hpop.step (.inside (t := 1) rfl .unlock)
  have hprocess := hunlock'.step (.process (t := 1) rfl rfl)
  have hdestruct := hprocess.step (.terminate (t := 1) rfl rfl)
  exact ⟨_, rfl, server_jobs_exclusively_owned hdestruct⟩

end HttpProxy
