import HttpProxy.StackInPool

/-!
# The server from its first thread to its last

`main` of `server.c` from the creation of the threads on, with the signal handler and the
threads that `main` creates.  The workers and the pushes of `main` are the pool of
`WorkerPool`, so that a run of the server is a run of that pool; what `main` adds is when a
worker starts, when the stacks are finished, and that it waits for all workers before it frees
what they share.
-/

namespace HttpProxy

open Transition

/-- Thread `i` is `workers[i]`, and the next number is that of the thread of `main`. -/
def mainThread : ℕ := clientWorkerThreads + prefetchWorkerThreads

def serverRole (t : ℕ) : Role ServerStack :=
  if t < clientWorkerThreads then .worker .client
  else if t < mainThread then .worker .prefetch
  else .main

/-- The sizes with which `create_shared_resource` constructs the stacks. -/
def serverMaxJobs : ServerStack → ℤ
  | .client => clientJobStackSize
  | .prefetch => clientJobStackSize * 4

def serverReserveSlots (_ : ServerStack) : ℤ := clientWorkerThreads

/-- The lines of `main`: the loops of `pthread_create`, the test of `SHOULD_SHUTDOWN`, `accept`,
the loop around `job_stack_push`, before and inside each `job_stack_signal_finish`, the loop of
`pthread_join`, and `free_shared_resource`. -/
inductive MainPc where
  | creating (created : ℕ)
  | testing
  | accepting
  | pushing
  | signalling (i : ServerStack)
  | signalled (i : ServerStack)
  | joining (joined : ℕ)
  | freeing
  | returned
  deriving DecidableEq, Repr

structure ServerState where
  pool : PoolState ServerStack
  mainPc : MainPc
  shouldShutdown : Bool

/-- The threads that have been created. -/
def MainPc.created : MainPc → ℕ
  | .creating created => created
  | _ => mainThread

def MainPc.joined : MainPc → ℕ
  | .joining joined => joined
  | .freeing => mainThread
  | .returned => mainThread
  | _ => 0

def MainPc.afterSignal : ServerStack → MainPc
  | .client => .signalling .prefetch
  | .prefetch => .joining 0

inductive ServerLabel where
  | handler
  | main
  | worker (t : ℕ)
  deriving DecidableEq, Repr

section

variable (table : BlockTable)

def serverPool : PoolConfig ServerStack :=
  serverConfig serverRole (RunsProcessJob table)

inductive ServerStep : ServerState → ServerLabel → ServerState → Prop
  -- `shutdown_signal_handler`
  | handler {s : ServerState} : ServerStep s .handler { s with shouldShutdown := true }
  | create {s : ServerState} {k : ℕ} (hpc : s.mainPc = .creating k) (hk : k < mainThread) :
      ServerStep s .main { s with mainPc := .creating (k + 1) }
  | listen {s : ServerState} (hpc : s.mainPc = .creating mainThread) :
      ServerStep s .main { s with mainPc := .testing, shouldShutdown := false }
  | goOn {s : ServerState} (hpc : s.mainPc = .testing) (hflag : s.shouldShutdown = false) :
      ServerStep s .main { s with mainPc := .accepting }
  | leave {s : ServerState} (hpc : s.mainPc = .testing) (hflag : s.shouldShutdown = true) :
      ServerStep s .main { s with mainPc := .signalling .client }
  | accept {s : ServerState} (fd : ℤ) (hpc : s.mainPc = .accepting) :
      ServerStep s .main
        { s with
          pool := s.pool.construct mainThread
            (.inside .client (.lock (.push s.pool.next)) none) (jobConstruct fd)
            (.accepted s.pool.next)
          mainPc := .pushing }
  | pushed {s : ServerState} (hpc : s.mainPc = .pushing)
      (hidle : (s.pool.threads mainThread).pc = .idle) :
      ServerStep s .main { s with mainPc := .testing }
  | signal {s : ServerState} {i : ServerStack} (hpc : s.mainPc = .signalling i) :
      ServerStep s .main
        { s with
          pool := s.pool.setPc mainThread (.inside i (.lock .signalFinish) none)
          mainPc := .signalled i }
  | signalled {s : ServerState} {i : ServerStack} (hpc : s.mainPc = .signalled i)
      (hidle : (s.pool.threads mainThread).pc = .idle) :
      ServerStep s .main { s with mainPc := .afterSignal i }
  | join {s : ServerState} {k : ℕ} (hpc : s.mainPc = .joining k) (hk : k < mainThread)
      (hstopped : (s.pool.threads k).pc = .stopped) :
      ServerStep s .main { s with mainPc := .joining (k + 1) }
  | close {s : ServerState} (hpc : s.mainPc = .joining mainThread) :
      ServerStep s .main { s with mainPc := .freeing }
  | free {s : ServerState} (hpc : s.mainPc = .freeing) :
      ServerStep s .main { s with mainPc := .returned }
  -- `main` inside an operation of a stack
  | inside {s : ServerState} {pool : PoolState ServerStack}
      (hbusy : (s.pool.threads mainThread).pc ≠ .idle)
      (h : PoolStep (serverPool table) mainThread s.pool pool) :
      ServerStep s .main { s with pool := pool }
  | worker {s : ServerState} {pool : PoolState ServerStack} {t : ℕ}
      (ht : t < s.mainPc.created) (h : PoolStep (serverPool table) t s.pool pool) :
      ServerStep s (.worker t) { s with pool := pool }

/-- The signal handler is set and the shared resource made when the first thread is created. -/
def serverSystem : System ServerState ServerLabel where
  Init s := s.pool = poolInit serverMaxJobs serverReserveSlots ∧ s.mainPc = .creating 0
  Step := ServerStep table

end

/-! ## Where `main` is -/

/-- A push that has come to its end was not refused. -/
def StackPc.NotRefused {α : Type} : StackPc α → Prop
  | .unlock _ status _ => status ≠ .finished
  | .returned _ status _ => status ≠ .finished
  | _ => True

/-- Where the thread of `main` is in the pool. -/
def MainAt : MainPc → PoolPc ServerStack → Prop
  | .pushing, pc =>
      pc = .idle ∨ ∃ pc' job, pc = .inside .client pc' none ∧
        pc'.called = some (.push job) ∧ pc'.NotRefused
  | .signalled i, pc =>
      pc = .idle ∨ ∃ pc', pc = .inside i pc' none ∧ pc'.called = some .signalFinish
  | _, pc => pc = .idle

/-- `main` has not left its loop. -/
def MainPc.Serves : MainPc → Prop
  | .creating _ => True
  | .testing => True
  | .accepting => True
  | .pushing => True
  | _ => False

structure MainLine (s : ServerState) : Prop where
  at_line : MainAt s.mainPc (s.pool.threads mainThread).pc
  unfinished : s.mainPc.Serves ∨ s.mainPc = .signalling .client →
    (s.pool.jobStacks .client).stack.finished = false
  created : s.mainPc.created ≤ mainThread
  uncreated : ∀ t, s.mainPc.created ≤ t → t ≠ mainThread → (s.pool.threads t).pc = .idle
  joined : ∀ t, t < s.mainPc.joined → (s.pool.threads t).pc = .stopped
  shutdown : s.mainPc.Serves ∨ s.shouldShutdown = true

variable {table : BlockTable} {s s' : ServerState} {p p' : PoolState ServerStack} {t : ℕ}

theorem serverRole_main : serverRole mainThread = .main := by
  rw [serverRole, if_neg (by simp [mainThread]), if_neg (Nat.lt_irrefl _)]

theorem serverRole_worker (ht : t < mainThread) : ∃ source, serverRole t = .worker source := by
  by_cases hclient : t < clientWorkerThreads
  · exact ⟨.client, if_pos hclient⟩
  · exact ⟨.prefetch, (if_neg hclient).trans (if_pos ht)⟩

theorem eq_mainThread (ht : t ≤ mainThread) (hrole : serverRole t = .main) : t = mainThread := by
  refine ht.antisymm (not_lt.mp fun hlt ↦ ?_)
  obtain ⟨source, hworker⟩ := serverRole_worker hlt
  rw [hworker] at hrole
  cases hrole

theorem StackStep.notRefused {α : Type} {sh sh' : StackShared α} {pc pc' : StackPc α}
    {job : α} (h : StackStep t sh pc sh' pc') (hopen : sh.stack.finished = false)
    (hcalled : pc.called = some (.push job)) (hpc : pc.NotRefused) : pc'.NotRefused := by
  cases h with
  | @keep op stack status hrun =>
      have hchange := StackOp.run_change sh.stack op
      rw [hrun] at hchange
      cases hchange with
      | refused _ hfin => simp [hopen] at hfin
  | @leave op stack wake status out waiters hrun =>
      obtain rfl : op = .push job := Option.some.inj hcalled
      have hchange := StackOp.run_change sh.stack (.push job)
      rw [hrun] at hchange
      cases hchange with
      | pushed => exact nofun
  | testFail => exact nofun
  | relock => exact nofun
  | unlock => exact hpc
  | _ => trivial

/-- Only `job_stack_signal_finish` sets `finished`. -/
theorem StackStep.finished_eq {α : Type} {sh sh' : StackShared α} {pc pc' : StackPc α}
    (h : StackStep t sh pc sh' pc') (hpc : pc.called ≠ some .signalFinish) :
    sh'.stack.finished = sh.stack.finished := by
  have hrun : ∀ {op : StackOp α} {locked : Locked α}, op ≠ .signalFinish →
      op.run sh.stack = locked → locked.stack.finished = sh.stack.finished := by
    intro op locked hop hlocked
    have hchange := StackOp.run_change sh.stack op
    rw [hlocked] at hchange
    cases hchange <;> simp_all [jobStackPushBack, jobStackSetItem]
  cases h with
  | keep h => exact hrun (fun hop ↦ hpc (congrArg some hop)) h
  | wait h => exact hrun (fun hop ↦ hpc (congrArg some hop)) h
  | leave h => exact hrun (fun hop ↦ hpc (congrArg some hop)) h
  | _ => rfl

theorem PoolStep.finished_eq {cfg : PoolConfig ServerStack} {i : ServerStack}
    (h : PoolStep cfg t p p')
    (hpc : ∀ pc rest, (p.threads t).pc = .inside i pc rest → pc.called ≠ some .signalFinish) :
    (p'.jobStacks i).stack.finished = (p.jobStacks i).stack.finished := by
  cases h with
  | @inside j rest pc pc' shared hinside h =>
      by_cases hji : i = j
      · subst hji
        simpa [PoolState.move] using h.finished_eq (hpc pc rest hinside)
      · simp [PoolState.move, hji]
  | _ => rfl

theorem PoolStep.not_stopped {cfg : PoolConfig ServerStack} (h : PoolStep cfg t p p') :
    (p.threads t).pc ≠ .stopped := by
  cases h <;> simp_all

theorem MainLine.idle_of_main (hs : MainLine s) (hrole : serverRole t = .main)
    (hne : t ≠ mainThread) : (s.pool.threads t).pc = .idle := by
  refine hs.uncreated t (hs.created.trans (not_lt.mp fun hlt ↦ hne ?_)) hne
  exact eq_mainThread hlt.le hrole

/-! ## One step of the server -/

/-- A worker moves, and `main` stays where it is. -/
theorem MainLine.worker (hs : MainLine s) (ht : t < s.mainPc.created)
    (hplays : Plays (serverPool table) (serverRole t) (s.pool.threads t).pc)
    (h : PoolStep (serverPool table) t s.pool p) : MainLine { s with pool := p } := by
  have hworker := serverRole_worker (ht.trans_le hs.created)
  have hmain : mainThread ≠ t := by
    rintro rfl
    exact absurd (ht.trans_le hs.created) (Nat.lt_irrefl _)
  refine ⟨?_, fun hopen ↦ ?_, hs.created, fun u hu hne ↦ ?_, fun u hu ↦ ?_, hs.shutdown⟩
  · rw [h.threads_ne hmain]
    exact hs.at_line
  · rw [h.finished_eq, hs.unfinished hopen]
    intro pc rest hpc hcalled
    obtain ⟨source, hrole⟩ := hworker
    rw [hrole, hpc] at hplays
    simp [Plays, WorkerPlays, hcalled] at hplays
  · rw [h.threads_ne (ht.trans_le hu).ne']
    exact hs.uncreated u hu hne
  · have hne : u ≠ t := by
      rintro rfl
      exact h.not_stopped (hs.joined u hu)
    rw [h.threads_ne hne]
    exact hs.joined u hu

/-- A thread with nothing to go on with moves on inside its operation, or is at its end. -/
theorem PoolStep.of_inside {i : ServerStack} {pc : StackPc ℕ}
    (h : PoolStep (serverPool table) t p p') (hpc : (p.threads t).pc = .inside i pc none) :
    (∃ pc' shared, StackStep t (p.jobStacks i) pc shared pc' ∧
        (p'.threads t).pc = .inside i pc' none) ∨
      ∃ op status out, pc = .returned op status out ∧
        (op = .pop ∨ (p'.threads t).pc = .idle ∧ (∀ job, op = .push job → status ≠ .fail) ∨
          ∃ job, op = .push job ∧ p' = p.setPc t (.inside i (.lock op) none)) := by
  have hset : ∀ (threads : ℕ → PoolThread ServerStack) (thread : PoolThread ServerStack),
      (Function.update threads t thread t).pc = thread.pc := by
    intro threads thread
    rw [Function.update_self]
  cases h with
  | inside hp h =>
      rw [hpc] at hp
      obtain ⟨rfl, rfl, rfl⟩ := PoolPc.inside.inj hp
      exact .inl ⟨_, _, h, hset _ _⟩
  | @retry j job out hp =>
      rw [hpc] at hp
      obtain ⟨rfl, rfl, -⟩ := PoolPc.inside.inj hp
      exact .inr ⟨_, _, _, rfl, .inr (.inr ⟨job, rfl, rfl⟩)⟩
  | accepted hp hstatus =>
      rw [hpc] at hp
      obtain ⟨-, rfl, -⟩ := PoolPc.inside.inj hp
      exact .inr ⟨_, _, _, rfl, .inr (.inl ⟨hset _ _, fun _ _ ↦ hstatus⟩)⟩
  | signalled hp | pushedBack hp | pushBackFailed hp =>
      rw [hpc] at hp
      obtain ⟨-, rfl, -⟩ := PoolPc.inside.inj hp
      exact .inr ⟨_, _, _, rfl, .inr (.inl ⟨hset _ _, nofun⟩)⟩
  | finished hp | again hp | process hp =>
      rw [hpc] at hp
      obtain ⟨-, rfl, -⟩ := PoolPc.inside.inj hp
      exact .inr ⟨_, _, _, rfl, .inl rfl⟩
  | accept _ _ hp | signal _ _ hp | poll _ hp | terminate hp | enqueue hp | call hp | dispatch hp
  | dispatched hp =>
      rw [hpc] at hp
      cases hp

theorem PoolStep.mainAt_pushing {pc : StackPc ℕ} {job : ℕ}
    (h : PoolStep (serverPool table) t p p') (hpc : (p.threads t).pc = .inside .client pc none)
    (hcalled : pc.called = some (.push job)) (hrefused : pc.NotRefused)
    (hopen : (p.jobStacks .client).stack.finished = false) :
    MainAt .pushing (p'.threads t).pc := by
  rcases h.of_inside hpc with ⟨pc', shared, hstep, hpc'⟩ | ⟨op, status, out, rfl, hend⟩
  · exact .inr ⟨pc', job, hpc', hstep.called_eq.trans hcalled,
      hstep.notRefused hopen hcalled hrefused⟩
  · obtain rfl : op = .push job := Option.some.inj hcalled
    rcases hend with hpop | ⟨hidle, -⟩ | ⟨_, -, rfl⟩
    · cases hpop
    · exact .inl hidle
    · exact .inr ⟨.lock (.push job), job, by simp [PoolState.setPc, PoolState.setThread], rfl,
        trivial⟩

theorem PoolStep.mainAt_signalled {i : ServerStack} {pc : StackPc ℕ}
    (h : PoolStep (serverPool table) t p p') (hpc : (p.threads t).pc = .inside i pc none)
    (hcalled : pc.called = some .signalFinish) : MainAt (.signalled i) (p'.threads t).pc := by
  rcases h.of_inside hpc with ⟨pc', shared, hstep, hpc'⟩ | ⟨op, status, out, rfl, hend⟩
  · exact .inr ⟨pc', hpc', hstep.called_eq.trans hcalled⟩
  · obtain rfl : op = .signalFinish := Option.some.inj hcalled
    rcases hend with hpop | ⟨hidle, -⟩ | ⟨_, hpush, -⟩
    · cases hpop
    · exact .inl hidle
    · cases hpush

/-- `main` moves inside an operation of a stack. -/
theorem MainLine.inside (hs : MainLine s) (hbusy : (s.pool.threads mainThread).pc ≠ .idle)
    (h : PoolStep (serverPool table) mainThread s.pool p) : MainLine { s with pool := p } := by
  have hline := hs.at_line
  have hunfinished : (s.mainPc.Serves ∨ s.mainPc = .signalling .client →
      (p.jobStacks .client).stack.finished = false) ∧
        MainAt s.mainPc (p.threads mainThread).pc := by
    cases hpc : s.mainPc with
    | pushing =>
        rw [hpc] at hline
        rcases hline with hidle | ⟨pc, job, hinside, hcalled, hrefused⟩
        · exact absurd hidle hbusy
        · have hopen := hs.unfinished (.inl (hpc ▸ trivial))
          refine ⟨fun _ ↦ ?_, h.mainAt_pushing hinside hcalled hrefused hopen⟩
          rw [h.finished_eq, hopen]
          intro pc' rest hinside'
          rw [hinside] at hinside'
          obtain ⟨-, rfl, -⟩ := PoolPc.inside.inj hinside'
          simp [hcalled]
    | signalled i =>
        rw [hpc] at hline
        rcases hline with hidle | ⟨pc, hinside, hcalled⟩
        · exact absurd hidle hbusy
        · exact ⟨by simp [MainPc.Serves], h.mainAt_signalled hinside hcalled⟩
    | _ =>
        rw [hpc] at hline
        exact absurd hline hbusy
  refine ⟨hunfinished.2, hunfinished.1, hs.created, fun u hu hne ↦ ?_, fun u hu ↦ ?_, hs.shutdown⟩
  · rw [h.threads_ne hne]
    exact hs.uncreated u hu hne
  · have hne : u ≠ mainThread := by
      rintro rfl
      exact h.not_stopped (hs.joined _ hu)
    rw [h.threads_ne hne]
    exact hs.joined u hu

/-- `main` moves on by itself, with no thread moving in the pool. -/
theorem MainLine.of_main {pc : MainPc} {flag : Bool} (hs : MainLine s)
    (hline : MainAt pc (s.pool.threads mainThread).pc)
    (hserves : pc.Serves ∨ pc = .signalling .client →
      s.mainPc.Serves ∨ s.mainPc = .signalling .client)
    (hcreated : s.mainPc.created ≤ pc.created) (hmost : pc.created ≤ mainThread)
    (hjoined : ∀ t, t < pc.joined → (s.pool.threads t).pc = .stopped)
    (hshutdown : pc.Serves ∨ flag = true) :
    MainLine ⟨s.pool, pc, flag⟩ where
  at_line := hline
  unfinished h := hs.unfinished (hserves h)
  created := hmost
  uncreated t ht := hs.uncreated t (hcreated.trans ht)
  joined := hjoined
  shutdown := hshutdown

/-- `main` goes on and has not told anybody to stop. -/
theorem MainLine.serving {pc : MainPc} {flag : Bool} (hs : MainLine s) (hserves : s.mainPc.Serves)
    (hline : MainAt pc (s.pool.threads mainThread).pc) (hcreated : s.mainPc.created ≤ pc.created)
    (hmost : pc.created ≤ mainThread) (hjoined : pc.joined = 0)
    (hshutdown : pc.Serves ∨ flag = true) :
    MainLine ⟨s.pool, pc, flag⟩ := by
  refine hs.of_main hline (fun _ ↦ .inl hserves) hcreated hmost (fun t ht ↦ ?_) hshutdown
  rw [hjoined] at ht
  exact absurd ht (Nat.not_lt_zero t)

/-- `main` goes on with the shutdown, which has been asked for. -/
theorem MainLine.stopping {pc : MainPc} (hs : MainLine s) (hstops : ¬s.mainPc.Serves)
    (hnot : ¬(pc.Serves ∨ pc = .signalling .client))
    (hline : MainAt pc (s.pool.threads mainThread).pc) (hcreated : s.mainPc.created ≤ pc.created)
    (hmost : pc.created ≤ mainThread)
    (hjoined : ∀ t, t < pc.joined → (s.pool.threads t).pc = .stopped) :
    MainLine ⟨s.pool, pc, s.shouldShutdown⟩ :=
  hs.of_main hline (fun h ↦ absurd h hnot) hcreated hmost hjoined
    (.inr (hs.shutdown.resolve_left hstops))

/-- `main` calls an operation of a stack. -/
theorem MainLine.calls {pc : MainPc} (hs : MainLine s) (hcalled : ¬s.mainPc.Serves ∨ pc.Serves)
    (hline : MainAt pc (p.threads mainThread).pc) (hstacks : p.jobStacks = s.pool.jobStacks)
    (hthreads : ∀ t, t ≠ mainThread → p.threads t = s.pool.threads t)
    (hserves : pc.Serves ∨ pc = .signalling .client →
      s.mainPc.Serves ∨ s.mainPc = .signalling .client)
    (hcreated : s.mainPc.created ≤ pc.created) (hmost : pc.created ≤ mainThread)
    (hjoined : pc.joined = 0) : MainLine ⟨p, pc, s.shouldShutdown⟩ where
  at_line := hline
  unfinished h := by
    rw [hstacks]
    exact hs.unfinished (hserves h)
  created := hmost
  uncreated t ht hne := by
    rw [hthreads t hne]
    exact hs.uncreated t (hcreated.trans ht) hne
  joined t ht := by
    rw [hjoined] at ht
    exact absurd ht (Nat.not_lt_zero t)
  shutdown := by
    rcases hcalled with hnot | hpc
    · exact .inr (hs.shutdown.resolve_left hnot)
    · exact .inl hpc

theorem MainLine.step {l : ServerLabel} (hs : MainLine s)
    (hplays : ∀ t, Plays (serverPool table) (serverRole t) (s.pool.threads t).pc)
    (h : ServerStep table s l s') : MainLine s' := by
  have hline := hs.at_line
  cases h with
  | handler =>
      exact ⟨hs.at_line, hs.unfinished, hs.created, hs.uncreated, hs.joined, .inr rfl⟩
  | create hpc hk =>
      rw [hpc] at hline
      exact hs.serving (hpc ▸ trivial) hline (by simp [hpc, MainPc.created]) hk rfl (.inl trivial)
  | listen hpc =>
      rw [hpc] at hline
      exact hs.serving (hpc ▸ trivial) hline (by simp [hpc, MainPc.created]) (Nat.le_refl _) rfl
        (.inl trivial)
  | goOn hpc hflag =>
      rw [hpc] at hline
      exact hs.serving (hpc ▸ trivial) hline (by simp [hpc, MainPc.created]) (Nat.le_refl _) rfl
        (.inl trivial)
  | leave hpc hflag =>
      rw [hpc] at hline
      exact hs.serving (hpc ▸ trivial) hline (by simp [hpc, MainPc.created]) (Nat.le_refl _) rfl
        (.inr hflag)
  | accept fd hpc =>
      exact hs.calls (.inr trivial)
        (.inr ⟨.lock (.push s.pool.next), _, by simp [PoolState.construct], rfl, trivial⟩) rfl
        (fun t hne ↦ Function.update_of_ne hne _ _) (fun _ ↦ .inl (hpc ▸ trivial))
        (by simp [hpc, MainPc.created]) (Nat.le_refl _) rfl
  | pushed hpc hidle =>
      exact hs.serving (hpc ▸ trivial) hidle (by simp [hpc, MainPc.created]) (Nat.le_refl _) rfl
        (.inl trivial)
  | @signal i hpc =>
      exact hs.calls (.inl (by simp [hpc, MainPc.Serves]))
        (.inr ⟨.lock .signalFinish, by simp [PoolState.setPc, PoolState.setThread], rfl⟩) rfl
        (fun t hne ↦ Function.update_of_ne hne _ _) (by simp [MainPc.Serves])
        (by simp [hpc, MainPc.created]) (Nat.le_refl _) rfl
  | @signalled i hpc hidle =>
      have hstops : ¬s.mainPc.Serves := by simp [hpc, MainPc.Serves]
      cases i with
      | client =>
          exact hs.stopping hstops (by simp [MainPc.afterSignal, MainPc.Serves]) hidle
            (by simp [hpc, MainPc.created, MainPc.afterSignal]) (Nat.le_refl _)
            fun t ht ↦ absurd ht (Nat.not_lt_zero t)
      | prefetch =>
          exact hs.stopping hstops (by simp [MainPc.afterSignal, MainPc.Serves]) hidle
            (by simp [hpc, MainPc.created, MainPc.afterSignal]) (Nat.le_refl _)
            fun t ht ↦ absurd ht (Nat.not_lt_zero t)
  | @join k hpc hk hstopped =>
      have hjoined := hs.joined
      rw [hpc] at hline hjoined
      refine hs.stopping (by simp [hpc, MainPc.Serves]) (by simp [MainPc.Serves]) hline
        (by simp [hpc, MainPc.created]) (Nat.le_refl _) fun t ht ↦ ?_
      rcases Nat.lt_succ_iff_lt_or_eq.mp ht with hlt | rfl
      · exact hjoined t hlt
      · exact hstopped
  | close hpc =>
      have hjoined := hs.joined
      rw [hpc] at hline hjoined
      exact hs.stopping (by simp [hpc, MainPc.Serves]) (by simp [MainPc.Serves]) hline
        (by simp [hpc, MainPc.created]) (Nat.le_refl _) hjoined
  | free hpc =>
      have hjoined := hs.joined
      rw [hpc] at hline hjoined
      exact hs.stopping (by simp [hpc, MainPc.Serves]) (by simp [MainPc.Serves]) hline
        (by simp [hpc, MainPc.created]) (Nat.le_refl _) hjoined
  | inside hbusy h => exact hs.inside hbusy h
  | @worker p t ht h => exact hs.worker ht (hplays t) h

/-- What the server does to the pool is a step of the pool, by a thread of the server. -/
theorem ServerStep.pool_step {l : ServerLabel} (hs : MainLine s) (h : ServerStep table s l s') :
    s'.pool = s.pool ∨ ∃ t, t ≤ mainThread ∧ PoolStep (serverPool table) t s.pool s'.pool := by
  have hline := hs.at_line
  cases h with
  | accept fd hpc =>
      rw [hpc] at hline
      exact .inr ⟨_, Nat.le_refl _, .accept fd serverRole_main hline⟩
  | @signal i hpc =>
      rw [hpc] at hline
      exact .inr ⟨_, Nat.le_refl _, .signal i serverRole_main hline⟩
  | inside hbusy h => exact .inr ⟨_, Nat.le_refl _, h⟩
  | worker ht h => exact .inr ⟨_, (ht.trans_le hs.created).le, h⟩
  | _ => exact .inl rfl

theorem mainLine_init (h : (serverSystem table).Init s) : MainLine s := by
  obtain ⟨hpool, hpc⟩ := h
  obtain ⟨pool, pc, flag⟩ := s
  obtain rfl : pool = _ := hpool
  obtain rfl : pc = _ := hpc
  exact
    { at_line := rfl
      unfinished := fun _ ↦ rfl
      created := Nat.zero_le _
      uncreated := fun t _ _ ↦ rfl
      joined := fun t ht ↦ absurd ht (Nat.not_lt_zero t)
      shutdown := .inl trivial }

/-- A run of the server is a run of its pool. -/
theorem server_refines_pool :
    (serverSystem table).Refines (workerPool (serverPool table) serverMaxJobs serverReserveSlots)
      fun s p ↦ p = s.pool ∧ MainLine s := by
  constructor
  · intro s h
    exact ⟨s.pool, h.1, rfl, mainLine_init h⟩
  · rintro s _ l s' - hp ⟨rfl, hline⟩ h
    refine ⟨s'.pool, ?_, rfl, hline.step (plays_reachable hp) h⟩
    exact (h.pool_step hline).imp_right fun ⟨t, _, ht⟩ ↦ ⟨t, ht⟩

theorem mainLine_reachable (hs : (serverSystem table).Reachable s) : MainLine s := by
  obtain ⟨_, -, -, hline⟩ := server_refines_pool.reachable hs
  exact hline

theorem pool_reachable (hs : (serverSystem table).Reachable s) :
    (workerPool (serverPool table) serverMaxJobs serverReserveSlots).Reachable s.pool := by
  obtain ⟨_, hp, rfl, -⟩ := server_refines_pool.reachable hs
  exact hp

/-- The server comes to its loop with no job and no worker moved. -/
theorem listening_reachable (table : BlockTable) :
    (serverSystem table).Reachable
      ⟨poolInit serverMaxJobs serverReserveSlots, .testing, false⟩ := by
  have hcreated : ∀ k ≤ mainThread, (serverSystem table).Reachable
      ⟨poolInit serverMaxJobs serverReserveSlots, .creating k, false⟩ := by
    intro k
    induction k with
    | zero => exact fun _ ↦ .init ⟨rfl, rfl⟩
    | succ k ih => exact fun hk ↦ (ih (by omega)).step (.create rfl hk)
  exact (hcreated _ (Nat.le_refl _)).step (.listen rfl)

end HttpProxy
