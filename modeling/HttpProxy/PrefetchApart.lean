import HttpProxy.JobHistory
import HttpProxy.PrefetchCalls
import HttpProxy.WorkerRoles

/-!
# Prefetch jobs stay among the prefetch workers

With `process_job` as the code of the workers, a job that was constructed for a link is only
ever in the hands it was constructed in, on the prefetch stack, or in the hands of a
prefetch worker.
-/

namespace HttpProxy

open CString Interaction Protocol Transition Ownership

variable {table : BlockTable} {role : ℕ → Role ServerStack} {s s' : PoolState ServerStack}
  {t job : ℕ} {maxJobs reserveSlots : ServerStack → ℤ}

/-- Jobs are processed by `process_job`, whatever its uninitialised locals are. -/
def RunsProcessJob (table : BlockTable) (job : Job) (code : Processing) : Prop :=
  ∃ fuel locals, code = processJob fuel locals table job

/-- Where prefetch jobs belong. -/
def PrefetchSide (role : ℕ → Role ServerStack) : Place ServerStack → Prop
  | .slot i _ => i = .prefetch
  | .current t => role t = .worker .prefetch
  | .fresh t => role t ≠ .main

/-- A prefetch worker pops and does what a prefetch job may do; whatever a worker dispatches
is a prefetch job. -/
def Behaves : Role ServerStack → PoolPc ServerStack → Prop
  | .worker .prefetch, .inside _ pc _ => pc.called = some .pop
  | .worker .prefetch, .working code =>
      code.Within (JobCalls (-1)) fun result ↦ result.1 = .terminate
  | .worker .client, .inside _ _ (some k) =>
      ∃ fd, ∀ status, (k status).Within (JobCalls fd) fun _ ↦ True
  | .worker .client, .working code => ∃ fd, code.Within (JobCalls fd) fun _ ↦ True
  | _, _ => True

structure PrefetchApart (role : ℕ → Role ServerStack) (s : PoolState ServerStack) : Prop where
  threads : ∀ t, Behaves (role t) (s.threads t).pc
  prefetch : ∀ p job, s.holds p = some job → PrefetchSide role p → IsPrefetchJob (s.jobs job)
  client : ∀ p job, s.holds p = some job → ¬PrefetchSide role p → .dispatched job ∉ s.log
  kept : ∀ job, .pushedBack job ∈ s.log → .dispatched job ∉ s.log

/-! ## One step -/

theorem Behaves.of_prefetch {role : Role ServerStack} {i : ServerStack} {pc : StackPc ℕ}
    {rest : Option (Status → Processing)} (h : Behaves role (.inside i pc rest))
    (hrole : role = .worker .prefetch) : pc.called = some .pop := by
  subst hrole
  exact h

theorem behaves_idle (role : Role ServerStack) : Behaves role .idle := by
  rcases role with ⟨⟨⟩⟩ | _ <;> trivial

/-- Where the thread that takes a step is afterwards, it still behaves. -/
theorem PoolStep.behaves (hfits : PoolFits s)
    (hplays : Plays (serverConfig role (RunsProcessJob table)) (role t) (s.threads t).pc)
    (hs : PrefetchApart role s)
    (h : PoolStep (serverConfig role (RunsProcessJob table)) t s s') :
    Behaves (role t) (s'.threads t).pc := by
  have hself := hs.threads t
  have hset : ∀ (threads : ℕ → PoolThread ServerStack) (thread : PoolThread ServerStack),
      Behaves (role t) thread.pc → Behaves (role t) (Function.update threads t thread t).pc := by
    intro threads thread h
    simpa using h
  cases hrole : role t with
  | main => trivial
  | worker source =>
    rw [hrole] at hself hplays hset
    cases h with
    | process hpc hcode =>
        apply hset
        obtain ⟨fuel, locals, rfl⟩ := hcode
        cases source with
        | client => exact ⟨_, (processJob_within fuel locals table _).mono fun _ _ ↦ trivial⟩
        | prefetch =>
            have hcurrent := (hfits.at hpc).2.1
            exact prefetchJob_within fuel locals table (hs.prefetch (.current t) _ hcurrent hrole)
    | call hpc hop r =>
        apply hset
        rw [hpc] at hself
        cases source with
        | client => exact hself.imp fun _ h ↦ h.2 r
        | prefetch => exact hself.2 r
    | dispatch hpc =>
        apply hset
        rw [hpc] at hself
        cases source with
        | client => exact hself.imp fun _ h ↦ h.2
        | prefetch => exact absurd rfl hself.1.1
    | @dispatched i job status out k hpc =>
        apply hset
        rw [hpc] at hself
        cases source with
        | client => exact hself.imp fun _ h ↦ h status
        | prefetch => exact absurd (hself.of_prefetch rfl) (by simp [StackPc.called])
    | @inside i rest pc pc' shared hpc h =>
        apply hset
        rw [hpc] at hself
        cases source with
        | client => cases rest <;> exact hself
        | prefetch => exact h.called_eq.trans hself
    | poll => cases source <;> exact hset _ _ (by trivial)
    | enqueue hpc =>
        apply hset
        rw [hpc] at hself
        cases source with
        | client => trivial
        | prefetch => exact absurd (show JobStatus.enqueue = .terminate from hself) (by simp)
    | retry hpc =>
        rw [hpc] at hplays
        simp [Plays, WorkerPlays, StackPc.called] at hplays
    | accept fd hmain => rw [show role t = .main from hmain] at hrole; cases hrole
    | signal i hmain => rw [show role t = .main from hmain] at hrole; cases hrole
    | _ => cases source <;> exact hset _ _ (by trivial)

/-- A job is handed over on its own side, and a new one belongs to whoever constructs it. -/
theorem PoolChange.side (h : PoolChange t s s')
    (hplays : Plays (serverConfig role (RunsProcessJob table)) (role t) (s.threads t).pc)
    (hself : Behaves (role t) (s.threads t).pc) {p : Place ServerStack}
    (hp : s'.holds p = some job) :
    (∃ q, s.holds q = some job ∧ (PrefetchSide role q ↔ PrefetchSide role p)) ∨
      job = s.next ∧ p = .fresh t ∧ (.accepted job ∈ s'.log ∨ .dispatched job ∈ s'.log) := by
  have hsame : s.holds p = some job →
      ∃ q, s.holds q = some job ∧ (PrefetchSide role q ↔ PrefetchSide role p) :=
    fun h ↦ ⟨p, h, Iff.rfl⟩
  cases h with
  | keep hholds => exact .inl (hsame (hholds ▸ hp))
  | construct event hevent hempty hholds hnext hlog =>
      by_cases hpt : p = .fresh t
      · obtain rfl : job = s.next := by simpa [hholds, hpt] using hp.symm
        refine .inr ⟨rfl, hpt, ?_⟩
        rcases hevent with rfl | rfl
        · exact .inl (by simp [hlog])
        · exact .inr (by simp [hlog])
      · exact .inl (hsame (by simpa [hholds, hpt] using hp))
  | forget i job₀ status out rest hpc hholds =>
      by_cases hpt : p = .fresh t
      · simp [hholds, hpt] at hp
      · exact .inl (hsame (by simpa [hholds, hpt] using hp))
  | push i index job₀ hfrom hempty hholds hnext hlog hpc =>
      by_cases hpi : p = .slot i index
      · obtain ⟨rest, hpc⟩ := hpc
        obtain rfl : job₀ = job := by simpa [hholds, hpi] using hp
        refine .inl ⟨.fresh t, hfrom, ?_⟩
        rw [hpc] at hplays
        rcases hplays.of_push rfl with ⟨hrole, hi⟩ | ⟨⟨source, hrole⟩, hi⟩
        · simp [PrefetchSide, hpi, hrole, hi, serverConfig]
        · simp [PrefetchSide, hpi, hrole, hi, serverConfig]
      · rw [hholds, Function.update_of_ne hpi] at hp
        by_cases hpt : p = .fresh t
        · simp [hpt] at hp
        · exact .inl (hsame (by simpa [hpt] using hp))
  | pushBack i job₀ hfrom hempty hholds hnext hlog hpc =>
      by_cases hpi : p = .slot i 0
      · obtain ⟨rest, hpc⟩ := hpc
        obtain rfl : job₀ = job := by simpa [hholds, hpi] using hp
        refine .inl ⟨.current t, hfrom, ?_⟩
        rw [hpc] at hplays hself
        obtain ⟨hi, -⟩ := hplays.worker_of_pushBack rfl
        have hrole : role t ≠ .worker .prefetch := fun hrole ↦ by
          simpa [StackPc.called] using hself.of_prefetch hrole
        simp [PrefetchSide, hpi, hrole, hi, serverConfig]
      · rw [hholds, Function.update_of_ne hpi] at hp
        by_cases hpt : p = .current t
        · simp [hpt] at hp
        · refine .inl ⟨Place.below i p, by simpa [hpt] using hp, ?_⟩
          cases p with
          | slot i' index => by_cases hi : i' = i <;> simp [Place.below, hi, PrefetchSide]
          | current u => rfl
          | fresh u => rfl
  | pop i index job₀ hfrom hempty hholds hnext hlog hpc =>
      by_cases hpt : p = .current t
      · obtain ⟨rest, hpc⟩ := hpc
        obtain rfl : job₀ = job := by simpa [hholds, hpt] using hp
        refine .inl ⟨.slot i index, hfrom, ?_⟩
        rw [hpc] at hplays
        have hrole := hplays.worker_of_pop rfl
        simp [PrefetchSide, hpt, hrole]
      · rw [hholds, Function.update_of_ne hpt] at hp
        by_cases hpi : p = .slot i index
        · simp [hpi] at hp
        · exact .inl (hsame (by simpa [hpi] using hp))
  | process job₀ hcurrent hholds => exact .inl (hsame (hholds ▸ hp))
  | destruct job₀ hcurrent hholds =>
      by_cases hpt : p = .current t
      · simp [hholds, hpt] at hp
      · exact .inl (hsame (by simpa [hholds, hpt] using hp))

/-- A step writes a new job, and its own one before it pushes it back. -/
theorem PoolStep.jobs_eq {cfg : PoolConfig ServerStack} (h : PoolStep cfg t s s') (job : ℕ) :
    s'.jobs job = s.jobs job ∨ job = s.next ∨
      s.holds (.current t) = some job ∧
        ∃ left, (s.threads t).pc = .working (.ret (.enqueue, left)) := by
  have hupdate : ∀ (next : ℕ) (new : Job), Function.update s.jobs next new job = s.jobs job ∨
      job = next := by
    intro next new
    by_cases hjob : job = next
    · exact .inr hjob
    · exact .inl (Function.update_of_ne hjob _ _)
  cases h with
  | accept => exact (hupdate _ _).imp_right .inl
  | dispatch => exact (hupdate _ _).imp_right .inl
  | enqueue hpc hjob =>
      refine (hupdate _ _).imp_right fun h ↦ .inr ⟨?_, _, hpc⟩
      rw [h]
      exact hjob
  | _ => exact .inl rfl

/-- `main` accepts jobs and workers dispatch prefetch jobs. -/
theorem PoolStep.constructs
    (hplays : Plays (serverConfig role (RunsProcessJob table)) (role t) (s.threads t).pc)
    (hself : Behaves (role t) (s.threads t).pc)
    (h : PoolStep (serverConfig role (RunsProcessJob table)) t s s') :
    (.accepted job ∈ s'.log → .accepted job ∈ s.log ∨ role t = .main) ∧
      (.dispatched job ∈ s'.log → .dispatched job ∈ s.log ∨
        role t ≠ .main ∧ IsPrefetchJob (s'.jobs job)) := by
  cases h with
  | accept fd hmain =>
      refine ⟨fun _ ↦ .inr hmain, fun hmem ↦ .inl ?_⟩
      simpa [PoolState.construct] using hmem
  | @dispatch new k hpc =>
      refine ⟨fun hmem ↦ .inl ?_, fun hmem ↦ ?_⟩
      · simpa [PoolState.construct] using hmem
      · rw [hpc] at hplays hself
        obtain ⟨source, hrole⟩ := hplays.worker_of_working
        rw [hrole] at hself
        have hnew : IsPrefetchJob new := by
          cases source with
          | client =>
              obtain ⟨fd, hcalls, -⟩ := hself
              exact hcalls.2
          | prefetch => exact hself.1.2
        by_cases hjob : job = s.next
        · subst hjob
          exact .inr ⟨by simp [hrole], by simpa [PoolState.construct] using hnew⟩
        · exact .inl (by simpa [PoolState.construct, hjob] using hmem)
  | @inside i rest pc pc' =>
      have hquiet : .accepted job ∉ stackEvents pc pc' ∧ .dispatched job ∉ stackEvents pc pc' := by
        unfold stackEvents
        split <;> simp
      refine ⟨fun hmem ↦ .inl ?_, fun hmem ↦ .inl ?_⟩
      · simpa [PoolState.move, hquiet.1] using hmem
      · simpa [PoolState.move, hquiet.2] using hmem
  | process => exact ⟨fun hmem ↦ .inl (by simpa using hmem), fun hmem ↦ .inl (by simpa using hmem)⟩
  | terminate =>
      refine ⟨fun hmem ↦ .inl ?_, fun hmem ↦ .inl ?_⟩
      · simpa [PoolState.destruct] using hmem
      · simpa [PoolState.destruct] using hmem
  | pushBackFailed =>
      refine ⟨fun hmem ↦ .inl ?_, fun hmem ↦ .inl ?_⟩
      · simpa [PoolState.destruct] using hmem
      · simpa [PoolState.destruct] using hmem
  | _ => exact ⟨.inl, .inl⟩

/-- A push-back is made by a worker for clients on the job in its hands. -/
theorem PoolChange.pushedBack (h : PoolChange t s s') (hmem : .pushedBack job ∈ s'.log) :
    .pushedBack job ∈ s.log ∨
      s.holds (.current t) = some job ∧
        ∃ i rest, (s.threads t).pc = .inside i (.body (.pushBack job)) rest := by
  cases h with
  | pushBack i job₀ hfrom hempty hholds hnext hlog hpc =>
      rcases List.mem_append.mp (hlog ▸ hmem) with hold | hnew
      · exact .inl hold
      · obtain rfl : job = job₀ := by simpa using hnew
        obtain ⟨rest, hpc⟩ := hpc
        exact .inr ⟨hfrom, i, rest, hpc⟩
  | construct event hevent hempty hholds hnext hlog =>
      rcases hevent with rfl | rfl <;> exact .inl (by simpa [hlog] using hmem)
  | keep hholds hnext hlog => exact .inl (hlog ▸ hmem)
  | forget i job₀ status out rest hpc hholds hnext hlog => exact .inl (hlog ▸ hmem)
  | push i index job₀ hfrom hempty hholds hnext hlog => exact .inl (by simpa [hlog] using hmem)
  | pop i index job₀ hfrom hempty hholds hnext hlog => exact .inl (by simpa [hlog] using hmem)
  | process job₀ hcurrent hholds hnext hlog => exact .inl (by simpa [hlog] using hmem)
  | destruct job₀ hcurrent hholds hnext hlog => exact .inl (by simpa [hlog] using hmem)

theorem PrefetchApart.step (hs : PrefetchApart role s) (howned : JobsOwned s)
    (hplays : Plays (serverConfig role (RunsProcessJob table)) (role t) (s.threads t).pc)
    (h : PoolStep (serverConfig role (RunsProcessJob table)) t s s') : PrefetchApart role s' := by
  have hself := hs.threads t
  have hchange := h.change howned.fits
  have howned' := howned.step h
  have hbound : ∀ {event : JobEvent}, event ∈ s.log → event.job ≠ s.next :=
    fun hmem ↦ (howned.logged _ hmem).ne
  refine ⟨fun u ↦ ?_, fun p job hp hside ↦ ?_, fun p job hp hside hmem ↦ ?_,
    fun job hback hmem ↦ ?_⟩
  · by_cases hu : u = t
    · subst hu
      exact h.behaves howned.fits hplays hs
    · rw [PoolStep.threads_ne h hu]
      exact hs.threads u
  · rcases hchange.side hplays hself hp with ⟨q, hq, hiff⟩ | ⟨rfl, rfl, hevent⟩
    · have hjob := hs.prefetch q job hq (hiff.mpr hside)
      rcases h.jobs_eq job with hsame | hnext | ⟨hcurrent, left, hpc⟩
      · rwa [hsame]
      · exact absurd (howned.alive q job hq).1 (by omega)
      · obtain rfl := howned.exclusive hq hcurrent
        have hrole : role t = .worker .prefetch := hiff.mpr hside
        rw [hpc, hrole] at hself
        exact absurd (show JobStatus.enqueue = .terminate from hself) (by simp)
    · rcases hevent with haccepted | hdispatched
      · rcases (h.constructs hplays hself).1 haccepted with hold | hmain
        · exact absurd rfl (hbound hold)
        · exact absurd hmain hside
      · rcases (h.constructs hplays hself).2 hdispatched with hold | ⟨-, hnew⟩
        · exact absurd rfl (hbound hold)
        · exact hnew
  · rcases (h.constructs hplays hself).2 hmem with hold | ⟨hworker, -⟩
    · rcases hchange.side hplays hself hp with ⟨q, hq, hiff⟩ | ⟨rfl, -⟩
      · exact hs.client q job hq (fun hq ↦ hside (hiff.mp hq)) hold
      · exact hbound hold rfl
    · rcases hchange.dispatched hmem with hold | ⟨hfresh, rfl⟩
      · rcases hchange.side hplays hself hp with ⟨q, hq, hiff⟩ | ⟨hnext, -⟩
        · exact hs.client q job hq (fun hq ↦ hside (hiff.mp hq)) hold
        · exact hbound hold hnext
      · obtain rfl := howned'.exclusive hp hfresh
        exact hside hworker
  · rcases hchange.pushedBack hback with hold | ⟨hcurrent, i, rest, hpc⟩
    · rcases hchange.dispatched hmem with hdispatched | ⟨-, hnext⟩
      · exact hs.kept job hold hdispatched
      · exact hbound hold hnext
    · have hside : ¬PrefetchSide role (.current t) := by
        intro hrole
        rw [hpc] at hself
        simpa [StackPc.called] using hself.of_prefetch hrole
      rcases hchange.dispatched hmem with hdispatched | ⟨-, hnext⟩
      · exact hs.client _ job hcurrent hside hdispatched
      · exact absurd (howned.alive _ job hcurrent).1 (by omega)

theorem prefetchApart_reachable
    (hs : (workerPool (serverConfig role (RunsProcessJob table))
      maxJobs reserveSlots).Reachable s) :
    PrefetchApart role s := by
  induction hs with
  | init h =>
      subst h
      have hnone : ∀ p, (poolInit maxJobs reserveSlots).holds p = none := by
        intro p
        cases p with
        | slot i index => exact if_neg (by simp only [poolInit, jobStackConstruct]; omega)
        | current u => rfl
        | fresh u => rfl
      exact ⟨fun t ↦ behaves_idle _, by simp [hnone], by simp [hnone], by simp [poolInit]⟩
  | @step s s' t hr h ih => exact ih.step (jobsOwned_reachable hr) (plays_reachable hr t) h

/-! ## No recursion -/

/-- What holds of the server's threads and stacks: prefetch jobs are never pushed back, only
prefetch workers process them, and these do nothing but pop from their own stack. -/
structure NoRecursion (role : ℕ → Role ServerStack) (s : PoolState ServerStack) : Prop where
  notPushedBack : ∀ job, .dispatched job ∈ s.log → .pushedBack job ∉ s.log
  processed : ∀ t job, (s.threads t).current = some job → .dispatched job ∈ s.log →
    role t = .worker .prefetch
  onlyPops : ∀ t i pc rest, role t = .worker .prefetch → (s.threads t).pc = .inside i pc rest →
    pc.called = some .pop ∧ i = .prefetch

/-- A call with which a client is answered, a cached file is scanned for links or a job is
pushed. -/
def ReachesOut : Op → Prop
  | .recv (.client _) _ _ => True
  | .peek (.client _) => True
  | .send (.client _) _ => True
  | .fseek _ _ _ => True
  | .indeterminate _ => True
  | .jobStackPush _ => True
  | _ => False

theorem JobCalls.not_reachesOut {op : Op} (h : JobCalls (-1) op) : ¬ReachesOut op := by
  intro hout
  cases op with
  | recv socket size dontWait =>
      cases socket with
      | client fd => exact h rfl
      | server fd => exact hout
  | peek socket =>
      cases socket with
      | client fd => exact h rfl
      | server fd => exact hout
  | send socket bytes =>
      cases socket with
      | client fd => exact h rfl
      | server fd => exact hout
  | fseek => exact h rfl
  | indeterminate => exact h rfl
  | jobStackPush => exact h.1 rfl
  | _ => exact hout

/-- Prefetching does not recurse: `process_job` on a job for a link sends nothing to a
client, never comes to `dispatch_prefetch_jobs` and terminates, so that in the server no
prefetch job is pushed back or makes further jobs. -/
theorem prefetching_does_not_recurse :
    (∀ fuel locals table hostname foundLink tr out,
      0 ∉ hostname → hostname.length ≤ maxNameLength → 0 ∉ foundLink →
        foundLink.length ≤ maxUrlSize →
          anything.Run () (processJob fuel locals table (prefetchJob hostname foundLink))
              tr () out →
            (∀ e ∈ tr, ¬ReachesOut e.1) ∧ ∀ result, out = .ok result → result.1 = .terminate) ∧
      ∀ (table : BlockTable) (role : ℕ → Role ServerStack) (maxJobs reserveSlots : ServerStack → ℤ)
        (s : PoolState ServerStack),
        (workerPool (serverConfig role (RunsProcessJob table)) maxJobs reserveSlots).Reachable s →
          NoRecursion role s := by
  constructor
  · intro fuel locals table hostname foundLink tr out hstring hlength hlink hlinkLength hrun
    have hfits : LinkFits hostname foundLink := ⟨hstring, by omega, hlink, hlinkLength⟩
    obtain ⟨hcalls, hresult⟩ :=
      hrun.within (prefetchJob_within fuel locals table ⟨_, _, hfits, rfl⟩)
    exact ⟨fun e he ↦ (hcalls e he).not_reachesOut, hresult⟩
  · intro table role maxJobs reserveSlots s hs
    have hapart := prefetchApart_reachable hs
    refine ⟨fun job hmem hback ↦ hapart.kept job hback hmem, fun t job hjob hmem ↦ ?_, ?_⟩
    · by_contra hrole
      exact hapart.client (.current t) job hjob hrole hmem
    · intro t i pc rest hrole hpc
      have hself := hapart.threads t
      have hplays := plays_reachable hs t
      rw [hpc] at hself hplays
      have hcalled := hself.of_prefetch hrole
      have hsource : role t = .worker i := hplays.worker_of_pop hcalled
      refine ⟨hcalled, ?_⟩
      simpa [hrole] using hsource.symm

theorem prefetching_does_not_recurse_oneLink :
    (∃ tr out, anything.Run () (processJob 1 ⟨false, .malformed, false, none⟩ []
        (prefetchJob (text "a") (text "/x"))) tr () out ∧
      (∀ e ∈ tr, ¬ReachesOut e.1) ∧ ∀ result, out = .ok result → result.1 = .terminate) ∧
      ∃ s : PoolState ServerStack, (s.threads 0).pc = .inside .prefetch (.lock .pop) none ∧
        NoRecursion (fun _ ↦ .worker .prefetch) s := by
  obtain ⟨tr, ⟨⟩, out, hrun⟩ := exists_run anything_total
    (processJob 1 ⟨false, .malformed, false, none⟩ [] (prefetchJob (text "a") (text "/x"))) ()
  have hinit : (workerPool (serverConfig (fun _ ↦ .worker .prefetch) (RunsProcessJob []))
      (fun _ ↦ 1) (fun _ ↦ 1)).Reachable _ := .init rfl
  have hpoll := hinit.step (.poll (t := 0) (i := .prefetch) rfl rfl)
  refine ⟨⟨tr, out, hrun, prefetching_does_not_recurse.1 _ _ _ _ _ _ _ (by decide) (by decide)
    (by decide) (by decide) hrun⟩, _, ?_, prefetching_does_not_recurse.2 _ _ _ _ _ hpoll⟩
  rfl

end HttpProxy
