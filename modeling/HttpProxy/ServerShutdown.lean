import HttpProxy.ServerConnections

/-!
# The server shuts down clean

When `main` comes to `free_shared_resource` it has joined every worker.  A worker stops only
when it finds its own stack finished and empty, and nobody fills a stack again after its last
worker has: `main` pushes no more, a push onto a finished stack is refused, and only the
workers of the clients' stack push back.  So both stacks are empty when they are destructed,
and every connection has been closed.
-/

namespace HttpProxy

open Transition Ownership

variable {table : BlockTable} {role : ℕ → Role ServerStack} {p p' : PoolState ServerStack}
  {i j : ServerStack} {t : ℕ}

/-- The worker has been told that its stack is finished. -/
def PoolPc.Told : PoolPc ServerStack → Prop
  | .stopped => True
  | .inside _ pc _ => pc.FoundEmpty
  | _ => False

def AllTold (role : ℕ → Role ServerStack) (i : ServerStack) (p : PoolState ServerStack) : Prop :=
  ∀ t, role t = .worker i → (p.threads t).pc.Told

/-- When the last worker of the stack was told, the stack was empty, and it has stayed so. -/
def ToldEmpty (role : ℕ → Role ServerStack) (i : ServerStack) (p : PoolState ServerStack) : Prop :=
  AllTold role i p →
    (p.jobStacks i).stack.finished = true ∧ (p.jobStacks i).stack.top = 0

theorem AllTold.before {cfg : PoolConfig ServerStack} (htold : AllTold role i p')
    (h : PoolStep cfg t p p')
    (hback : role t = .worker i → (p'.threads t).pc.Told → (p.threads t).pc.Told) :
    AllTold role i p := by
  intro u hu
  have hafter := htold u hu
  by_cases hut : u = t
  · subst hut
    exact hback hu hafter
  · rwa [h.threads_ne hut] at hafter

theorem StackPc.FoundEmpty.called {pc : StackPc ℕ} (h : pc.FoundEmpty) :
    pc.called = some .pop := by
  unfold StackPc.FoundEmpty at h
  split at h
  · rfl
  · rfl
  · exact h.elim

/-- A step inside an operation of the stack: one case for each thing it can do. -/
theorem ToldEmpty.inside {rest : Option (Status → Processing)} {pc pc' : StackPc ℕ}
    {shared : StackShared ℕ} (hs : ToldEmpty role i p)
    (hstep : PoolStep (serverConfig role (RunsProcessJob table)) t p
      (p.move t j rest pc pc' shared))
    (hplays : Plays (serverConfig role (RunsProcessJob table)) (role t) (p.threads t).pc)
    (hself : Behaves (role t) (p.threads t).pc) (hpc : (p.threads t).pc = .inside j pc rest)
    (h : StackStep t (p.jobStacks j) pc shared pc') :
    ToldEmpty role i (p.move t j rest pc pc' shared) := by
  intro htold
  have hthread : ((p.move t j rest pc pc' shared).threads t).pc = .inside j pc' rest := by
    simp [PoolState.move]
  rw [hpc] at hplays hself
  by_cases hji : j = i
  · subst hji
    have hstack : (p.move t j rest pc pc' shared).jobStacks j = shared := by
      simp [PoolState.move]
    -- a worker of the stack in this step has not been told, so it was none
    have hothers : ¬pc'.FoundEmpty →
        (p.jobStacks j).stack.finished = true ∧ (p.jobStacks j).stack.top = 0 := by
      intro hnot
      refine hs (htold.before hstep fun _ hfound ↦ ?_)
      rw [hthread] at hfound
      exact absurd hfound hnot
    rw [hstack]
    cases h.emptyChange with
    | quiet htop hfin hback =>
        have hbefore := hs (htold.before hstep fun _ hfound ↦ by
          rw [hthread] at hfound
          rw [hpc]
          exact hback hfound)
        exact ⟨hfin.trans hbefore.1, htop.trans hbefore.2⟩
    | found htop hfin => exact ⟨hfin, htop⟩
    | signalled hpc' htop hfin => exact ⟨hfin, htop.trans (hothers hpc').2⟩
    | pushed hpc' hopen =>
        have hfin := (hothers hpc').1
        rw [hopen] at hfin
        cases hfin
    | popped hpc' hsome => exact absurd (hothers hpc').2 hsome
    | pushedBack job hcalled hpc' =>
        obtain ⟨hclient, source, hrole⟩ := hplays.worker_of_pushBack hcalled
        cases source with
        | client =>
            have hfound := htold t (hclient ▸ hrole)
            rw [hthread] at hfound
            exact absurd hfound hpc'
        | prefetch =>
            have hpop := hself.of_prefetch hrole
            rw [hcalled] at hpop
            cases hpop
  · have hstack : (p.move t j rest pc pc' shared).jobStacks i = p.jobStacks i :=
      Function.update_of_ne (Ne.symm hji) _ _
    rw [hstack]
    refine hs (htold.before hstep fun hrole hfound ↦ ?_)
    rw [hthread] at hfound
    have hsource := hplays.worker_of_pop (h.called_eq ▸ hfound.called)
    rw [hrole] at hsource
    exact absurd (Role.worker.inj hsource).symm hji

theorem ToldEmpty.quiet (hs : ToldEmpty role i p)
    (h : PoolStep (serverConfig role (RunsProcessJob table)) t p p')
    (hstacks : p'.jobStacks = p.jobStacks)
    (hback : (p'.threads t).pc.Told → (p.threads t).pc.Told) : ToldEmpty role i p' := by
  intro htold
  rw [hstacks]
  exact hs (htold.before h fun _ ↦ hback)

theorem ToldEmpty.step (hs : ToldEmpty role i p)
    (hplays : Plays (serverConfig role (RunsProcessJob table)) (role t) (p.threads t).pc)
    (hself : Behaves (role t) (p.threads t).pc)
    (h : PoolStep (serverConfig role (RunsProcessJob table)) t p p') : ToldEmpty role i p' := by
  have hstep := h
  cases h with
  | inside hpc h => exact hs.inside hstep hplays hself hpc h
  | finished hpc => exact hs.quiet hstep rfl fun _ ↦ by rw [hpc]; trivial
  | _ =>
      exact hs.quiet hstep rfl fun htold ↦ by
        simp [PoolState.setPc, PoolState.setThread, PoolState.construct, PoolState.destruct,
          PoolState.forget, PoolPc.Told, StackPc.FoundEmpty] at htold

theorem toldEmpty_reachable {maxJobs reserveSlots : ServerStack → ℤ}
    (hworker : ∃ t, role t = .worker i)
    (hp : (workerPool (serverConfig role (RunsProcessJob table)) maxJobs reserveSlots).Reachable
      p) : ToldEmpty role i p := by
  induction hp with
  | init h =>
      subst h
      intro htold
      obtain ⟨t, ht⟩ := hworker
      exact (htold t ht).elim
  | @step p p' t hp h ih =>
      exact ih.step (plays_reachable hp t) ((prefetchApart_reachable hp).threads t) h

/-! ## What is left at the end -/

theorem PoolChange.stack_accounted {job : ℕ} (h : PoolChange t p p')
    (hp : .pushed job ∈ p.log → Accounted p job) (hjob : .pushed job ∈ p'.log) :
    Accounted p' job := by
  by_cases hold : .pushed job ∈ p.log
  · exact h.accounted (hp hold)
  · cases h with
    | push i index job' hfrom hempty hholds hnext hlog =>
        obtain rfl : job = job' := by simpa [hlog, hold] using hjob
        exact .inr (.inl ⟨i, index, by rw [hholds, Function.update_self]⟩)
    | construct event hevent _ _ _ hlog =>
        rcases hevent with rfl | rfl <;> simp [hlog, hold] at hjob
    | keep _ _ hlog | forget _ _ _ _ _ _ _ _ hlog => exact absurd (hlog ▸ hjob) hold
    | pushBack _ _ _ _ _ _ hlog | pop _ _ _ _ _ _ _ hlog | process _ _ _ _ hlog
    | destruct _ _ _ _ hlog => simp [hlog, hold] at hjob

theorem stack_accounted_reachable {cfg : PoolConfig ServerStack}
    {maxJobs reserveSlots : ServerStack → ℤ} {job : ℕ}
    (hp : (workerPool cfg maxJobs reserveSlots).Reachable p) (hjob : .pushed job ∈ p.log) :
    Accounted p job := by
  induction hp with
  | init h =>
      subst h
      simp [poolInit] at hjob
  | step hp h ih =>
      exact (PoolStep.change (jobsOwned_reachable hp).fits h).stack_accounted ih hjob

variable {s : ServerState}

/-- All workers have stopped, nobody is inside a stack or has a job in its hands, the stacks are
empty, the mutex of the clients' stack is free, and every connection and every job that was
on a stack has been closed once. -/
structure ShutDownClean (s : ServerState) : Prop where
  shutdown : s.shouldShutdown = true
  workers : ∀ t, t < mainThread → (s.pool.threads t).pc = .stopped
  others : ∀ t, mainThread ≤ t → (s.pool.threads t).pc = .idle
  empty : ∀ i, (s.pool.jobStacks i).stack.finished = true ∧ (s.pool.jobStacks i).stack.top = 0
  nowhere : ∀ place, s.pool.holds place = none
  unlocked : (s.pool.jobStacks .client).mutex = none
  closed : ∀ job, .accepted job ∈ s.pool.log ∨ .pushed job ∈ s.pool.log →
    s.pool.log.count (.destructed job) = 1

theorem exists_worker (i : ServerStack) : ∃ t, serverRole t = .worker i := by
  cases i with
  | client => exact ⟨0, rfl⟩
  | prefetch => exact ⟨clientWorkerThreads, rfl⟩

theorem finishing_of_joined {pc : MainPc} (h : pc.joined = mainThread) :
    (∃ joined, pc = .joining joined) ∨ pc = .freeing ∨ pc = .returned := by
  cases pc with
  | joining joined => exact .inl ⟨joined, rfl⟩
  | freeing => exact .inr (.inl rfl)
  | returned => exact .inr (.inr rfl)
  | _ => exact absurd h (show 0 ≠ mainThread by decide)

theorem others_idle (hs : (serverSystem table).Reachable s)
    (hjoined : s.mainPc.joined = mainThread) (ht : mainThread ≤ t) :
    (s.pool.threads t).pc = .idle := by
  have hline := mainLine_reachable hs
  by_cases hmain : t = mainThread
  · subst hmain
    have hat := hline.at_line
    rcases finishing_of_joined hjoined with ⟨_, hpc⟩ | hpc | hpc <;> rwa [hpc] at hat
  · exact hline.uncreated t (hline.created.trans ht) hmain

/-- Once `main` has joined all workers, as it has when it frees what they share, nothing is left
of the work. -/
theorem server_shuts_down_clean (hs : (serverSystem table).Reachable s)
    (hjoined : s.mainPc.joined = mainThread) : ShutDownClean s := by
  have hline := mainLine_reachable hs
  have hpool := pool_reachable hs
  have hfits := (jobsOwned_reachable hpool).fits
  have hworkers : ∀ t, t < mainThread → (s.pool.threads t).pc = .stopped :=
    fun t ht ↦ hline.joined t (hjoined ▸ ht)
  have hempty : ∀ i, (s.pool.jobStacks i).stack.finished = true ∧
      (s.pool.jobStacks i).stack.top = 0 := by
    intro i
    refine toldEmpty_reachable (exists_worker i) hpool fun t hrole ↦ ?_
    rw [hworkers t (lt_mainThread hrole)]
    trivial
  have hhands : ∀ t, (s.pool.threads t).current = none ∧ (s.pool.threads t).fresh = none := by
    intro t
    rcases Nat.lt_or_ge t mainThread with ht | ht
    · exact hfits.at (hworkers t ht)
    · exact hfits.at (others_idle hs hjoined ht)
  have hnowhere : ∀ place, s.pool.holds place = none := by
    intro place
    cases place with
    | slot i index =>
        refine if_neg ?_
        rw [(hempty i).2]
        omega
    | current t => exact (hhands t).1
    | fresh t => exact (hhands t).2
  have haccounted : ∀ job, Accounted s.pool job → s.pool.log.count (.destructed job) = 1 := by
    intro job haccounted
    have hgone : .destructed job ∈ s.pool.log := by
      rcases haccounted with hgone | ⟨i, index, hslot⟩ | ⟨t, ht⟩
      · exact hgone
      · simp [hnowhere] at hslot
      · simp [hnowhere] at ht
    exact ((jobHistory_reachable hpool).once job).antisymm (List.count_pos_iff.mpr hgone)
  refine ⟨?_, hworkers, fun t ↦ others_idle hs hjoined, hempty, hnowhere, ?_, ?_⟩
  · refine hline.shutdown.resolve_left fun hserves ↦ ?_
    rcases finishing_of_joined hjoined with ⟨_, hpc⟩ | hpc | hpc <;> exact (hpc ▸ hserves).elim
  · cases hmutex : (s.pool.jobStacks .client).mutex with
    | none => rfl
    | some t =>
        obtain ⟨pc, rest, hpc, -⟩ := (clientMutex_owner hs).mp hmutex
        rcases Nat.lt_or_ge t mainThread with ht | ht
        · rw [hworkers t ht] at hpc
          cases hpc
        · rw [others_idle hs hjoined ht] at hpc
          cases hpc
  · rintro job (haccepted | hpushed)
    · refine haccounted job ((inService_reachable hs job haccepted).resolve_right ?_)
      simp [hnowhere]
    · exact haccounted job (stack_accounted_reachable hpool hpushed)

/-! ## A whole run -/

/-- A client connects and closes the connection again. -/
theorem oneClient_reachable : ∃ s : ServerState, (serverSystem []).Reachable s ∧
    s.mainPc = .testing ∧
    s.pool.log = [.accepted 0, .pushed 0, .popped 0, .processed 0, .destructed 0] ∧
      (∀ t, (s.pool.threads t).pc = .idle) ∧
        ∀ i, (s.pool.jobStacks i).stack.top = 0 ∧ (s.pool.jobStacks i).mutex = none := by
  have hwaiting := (listening_reachable []).step (.goOn rfl rfl)
  have haccept := hwaiting.step (.accept 5 rfl)
  have hlock := haccept.step (.inside nofun (.inside rfl (.lock rfl)))
  have hpush := hlock.step (.inside nofun (.inside rfl
    (.leave rfl (.signal ∅ (Finset.empty_subset _) fun h ↦ h.ne_empty.symm))))
  have hunlock := hpush.step (.inside nofun (.inside rfl .unlock))
  have haccepted := hunlock.step (.inside nofun (.accepted rfl nofun))
  have htesting := haccepted.step (.pushed rfl rfl)
  have hpoll := htesting.step (.worker (t := 0) (by decide) (.poll (i := .client) rfl rfl))
  have hlock' := hpoll.step (.worker (t := 0) (by decide) (.inside rfl (.lock rfl)))
  have hpop := hlock'.step (.worker (t := 0) (by decide) (.inside rfl
    (.leave rfl (.signal ∅ (Finset.empty_subset _) fun h ↦ h.ne_empty.symm))))
  have hunlock' := hpop.step (.worker (t := 0) (by decide) (.inside rfl .unlock))
  have hprocess := hunlock'.step (.worker (t := 0) (by decide)
    (.process rfl (show RunsProcessJob [] (jobConstruct 5) _ from
      ⟨0, ⟨false, .malformed, false, none⟩, rfl⟩)))
  have hclosed := hprocess.step (.worker (t := 0) (by decide)
    (.call (show PoolThread.pc _ = .working
        (.call (.recv (.client 5) (jobRequestBufferSize - 0) true) _) from rfl) (by simp)
      (RecvResult.data [] (Nat.zero_le _))))
  have hdestruct := hclosed.step (.worker (t := 0) (by decide) (.terminate rfl rfl))
  refine ⟨_, hdestruct, rfl, rfl, ?_, ?_⟩
  · intro t
    by_cases hworker : t = 0
    · subst hworker
      rfl
    · by_cases hmain : t = mainThread
      · subst hmain
        rfl
      · simp [PoolState.destruct, PoolState.setPc, PoolState.setThread, PoolState.move,
          PoolState.forget, PoolState.construct, hworker, hmain, poolInit]
  · intro i
    cases i <;> exact ⟨rfl, rfl⟩

/-- `main` signals the end of a stack whose mutex is free. -/
theorem ServerState.signals {s : ServerState} {i : ServerStack}
    (hs : (serverSystem []).Reachable s) (hpc : s.mainPc = .signalling i)
    (hfree : (s.pool.jobStacks i).mutex = none) :
    ∃ s', (serverSystem []).Reachable s' ∧ s'.mainPc = .afterSignal i ∧
      s'.pool.log = s.pool.log ∧ (∀ t, (s'.pool.threads t).pc = (s.pool.threads t).pc) ∧
        (s'.pool.jobStacks i).stack = { (s.pool.jobStacks i).stack with finished := true } ∧
          (s'.pool.jobStacks i).mutex = none ∧
            ∀ j, j ≠ i → s'.pool.jobStacks j = s.pool.jobStacks j := by
  have hidle : (s.pool.threads mainThread).pc = .idle := by
    have hat := (mainLine_reachable hs).at_line
    rwa [hpc] at hat
  have hsignal := hs.step (.signal hpc)
  have hlock := hsignal.step (.inside (by simp [PoolState.setPc, PoolState.setThread])
    (.inside (show PoolThread.pc _ = .inside i (.lock .signalFinish) none by
      simp [PoolState.setPc, PoolState.setThread]) (.lock hfree)))
  have hfinish := hlock.step (.inside (by simp [PoolState.move])
    (.inside (show PoolThread.pc _ = .inside i (.body .signalFinish) none by
      simp [PoolState.move]) (.leave rfl .broadcast)))
  have hunlock := hfinish.step (.inside (by simp [PoolState.move])
    (.inside (show PoolThread.pc _ = .inside i (.unlock .signalFinish .success none) none by
      simp [PoolState.move]) .unlock))
  have hreturned := hunlock.step (.inside (by simp [PoolState.move])
    (.signalled (show PoolThread.pc _ = .inside i (.returned .signalFinish .success none) none by
      simp [PoolState.move])))
  have hafter := hreturned.step (.signalled rfl (by simp [PoolState.setPc, PoolState.setThread]))
  refine ⟨_, hafter, rfl, ?_, fun t ↦ ?_, ?_, ?_, fun j hj ↦ ?_⟩
  · simp [PoolState.setPc, PoolState.setThread, PoolState.move, stackEvents]
  · by_cases ht : t = mainThread
    · subst ht
      simp [PoolState.setPc, PoolState.setThread, hidle]
    · simp [PoolState.setPc, PoolState.setThread, PoolState.move, ht]
  · simp [PoolState.setPc, PoolState.setThread, PoolState.move]
  · simp [PoolState.setPc, PoolState.setThread, PoolState.move]
  · simp [PoolState.setPc, PoolState.setThread, PoolState.move, hj]

/-- A worker finds its stack finished and empty. -/
theorem ServerState.workerStops {s : ServerState} {i : ServerStack} {t : ℕ}
    (hs : (serverSystem []).Reachable s) (hcreated : t < s.mainPc.created)
    (hrole : serverRole t = .worker i) (hidle : (s.pool.threads t).pc = .idle)
    (htop : (s.pool.jobStacks i).stack.top = 0)
    (hfin : (s.pool.jobStacks i).stack.finished = true)
    (hfree : (s.pool.jobStacks i).mutex = none) :
    ∃ s', (serverSystem []).Reachable s' ∧ s'.mainPc = s.mainPc ∧ s'.pool.log = s.pool.log ∧
      (s'.pool.threads t).pc = .stopped ∧
        (∀ u, u ≠ t → (s'.pool.threads u).pc = (s.pool.threads u).pc) ∧
          ∀ j, (s'.pool.jobStacks j).stack = (s.pool.jobStacks j).stack ∧
            ((s.pool.jobStacks j).mutex = none → (s'.pool.jobStacks j).mutex = none) := by
  have hrun : StackOp.pop.run (s.pool.jobStacks i).stack =
      ⟨(s.pool.jobStacks i).stack, .nobody, .unlock .finished none⟩ := by
    simp [StackOp.run, jobStackPop, htop, hfin]
  have hpoll := hs.step (.worker hcreated (.poll hrole hidle))
  have hlock := hpoll.step (.worker (t := t) hcreated
    (.inside (show PoolThread.pc _ = .inside i (.lock .pop) none by
      simp [PoolState.setPc, PoolState.setThread]) (.lock hfree)))
  have hpop := hlock.step (.worker (t := t) hcreated
    (.inside (show PoolThread.pc _ = .inside i (.body .pop) none by simp [PoolState.move])
      (.leave (by simpa [PoolState.move, PoolState.setPc, PoolState.setThread] using hrun)
        .nobody)))
  have hunlock := hpop.step (.worker (t := t) hcreated
    (.inside (show PoolThread.pc _ = .inside i (.unlock .pop .finished none) none by
      simp [PoolState.move]) .unlock))
  have hstopped := hunlock.step (.worker (t := t) hcreated
    (.finished (show PoolThread.pc _ = .inside i (.returned .pop .finished none) none by
      simp [PoolState.move])))
  refine ⟨_, hstopped, rfl, ?_, ?_, fun u hu ↦ ?_, fun j ↦ ?_⟩
  · simp [PoolState.setPc, PoolState.setThread, PoolState.move, stackEvents]
  · simp [PoolState.setPc, PoolState.setThread]
  · simp [PoolState.setPc, PoolState.setThread, PoolState.move, hu]
  · by_cases hj : j = i
    · subst hj
      simp [PoolState.setPc, PoolState.setThread, PoolState.move]
    · simp [PoolState.setPc, PoolState.setThread, PoolState.move, hj]

/-- The workers of a server whose stacks are finished and empty stop one after the other. -/
theorem ServerState.workersStop {s : ServerState} (hs : (serverSystem []).Reachable s)
    (hpc : s.mainPc = .joining 0) (hidle : ∀ t, (s.pool.threads t).pc = .idle)
    (hempty : ∀ i, (s.pool.jobStacks i).stack.top = 0 ∧
      (s.pool.jobStacks i).stack.finished = true ∧ (s.pool.jobStacks i).mutex = none) :
    ∀ k ≤ mainThread, ∃ s', (serverSystem []).Reachable s' ∧ s'.mainPc = .joining 0 ∧
      s'.pool.log = s.pool.log ∧ (∀ t, t < k → (s'.pool.threads t).pc = .stopped) ∧
        (∀ t, k ≤ t → (s'.pool.threads t).pc = .idle) ∧
          ∀ i, (s'.pool.jobStacks i).stack.top = 0 ∧
            (s'.pool.jobStacks i).stack.finished = true ∧ (s'.pool.jobStacks i).mutex = none := by
  intro k
  induction k with
  | zero =>
      exact fun _ ↦ ⟨s, hs, hpc, rfl, fun t ht ↦ absurd ht (Nat.not_lt_zero t), fun t _ ↦ hidle t,
        hempty⟩
  | succ k ih =>
      intro hk
      obtain ⟨s', hs', hpc', hlog, hstopped, hidle', hempty'⟩ := ih (by omega)
      obtain ⟨source, hrole⟩ := serverRole_worker (t := k) (by omega)
      obtain ⟨htop, hfin, hfree⟩ := hempty' source
      obtain ⟨s'', hs'', hpc'', hlog', hk', hothers, hstacks⟩ :=
        ServerState.workerStops hs' (by rw [hpc']; exact hk) hrole (hidle' k (Nat.le_refl k)) htop
          hfin hfree
      refine ⟨s'', hs'', hpc''.trans hpc', hlog'.trans hlog, fun t ht ↦ ?_, fun t ht ↦ ?_,
        fun i ↦ ?_⟩
      · rcases Nat.lt_succ_iff_lt_or_eq.mp ht with hlt | rfl
        · rw [hothers t (by omega), hstopped t hlt]
        · exact hk'
      · rw [hothers t (by omega), hidle' t (by omega)]
      · obtain ⟨htop', hfin', hfree'⟩ := hempty' i
        obtain ⟨hsame, hmutex⟩ := hstacks i
        rw [hsame]
        exact ⟨htop', hfin', hmutex hfree'⟩

/-- One client comes and goes, and the server is told to shut down. -/
theorem server_shuts_down_clean_oneClient :
    ∃ s : ServerState, s.mainPc = .freeing ∧
      s.pool.log = [.accepted 0, .pushed 0, .popped 0, .processed 0, .destructed 0] ∧
        ShutDownClean s := by
  obtain ⟨s, hs, hpc, hlog, hidle, hempty⟩ := oneClient_reachable
  have htold := hs.step .handler
  have hleft := htold.step (.leave hpc rfl)
  obtain ⟨s₁, hs₁, hpc₁, hlog₁, hidle₁, hfin₁, hfree₁, hother₁⟩ :=
    ServerState.signals hleft rfl (hempty .client).2
  have hprefetch := hother₁ .prefetch nofun
  obtain ⟨s₂, hs₂, hpc₂, hlog₂, hidle₂, hfin₂, hfree₂, hother₂⟩ :=
    ServerState.signals hs₁ hpc₁ (by rw [hprefetch]; exact (hempty .prefetch).2)
  have hclient := hother₂ .client nofun
  obtain ⟨s₃, hs₃, hpc₃, hlog₃, hstopped₃, -, -⟩ :=
    ServerState.workersStop hs₂ hpc₂ (fun t ↦ by rw [hidle₂, hidle₁]; exact hidle t)
      (fun i ↦ by
        cases i with
        | client =>
            rw [hclient, hfin₁]
            exact ⟨(hempty .client).1, rfl, hfree₁⟩
        | prefetch =>
            rw [hfin₂, hprefetch]
            exact ⟨(hempty .prefetch).1, rfl, hfree₂⟩)
      mainThread (Nat.le_refl _)
  have hjoined : ∀ k ≤ mainThread,
      (serverSystem []).Reachable ⟨s₃.pool, .joining k, s₃.shouldShutdown⟩ := by
    intro k
    induction k with
    | zero =>
        intro _
        rw [← hpc₃]
        exact hs₃
    | succ k ih =>
        exact fun hk ↦ (ih (by omega)).step (.join rfl hk (hstopped₃ k hk))
  have hfreeing := (hjoined _ (Nat.le_refl _)).step (.close rfl)
  refine ⟨_, rfl, ?_, server_shuts_down_clean hfreeing rfl⟩
  exact ((hlog₃.trans hlog₂).trans hlog₁).trans hlog

end HttpProxy
