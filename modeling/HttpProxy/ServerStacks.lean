import HttpProxy.ServerRuns
import Mathlib.Order.Interval.Finset.Nat

/-!
# The two stacks of the server

Each stack of a running server is a run of the job stack alone, with the four workers of the
stack as its consumers.  So a stack never overflows its array and no wakeup is lost, and the
clients' stack, which only `main` pushes onto and only before it signals the end, never keeps
its mutex.
-/

namespace HttpProxy

open Transition Ownership

variable {table : BlockTable} {s s' : ServerState} {i : ServerStack} {st : StackState ℕ} {t : ℕ}

def serverConsumers : ServerStack → Finset ℕ
  | .client => Finset.range clientWorkerThreads
  | .prefetch => Finset.Ico clientWorkerThreads mainThread

def serverProducers : ServerStack → Finset ℕ
  | .client => {mainThread}
  | .prefetch => Finset.range clientWorkerThreads

/-- A run of one stack in which everybody keeps to its part, and in which nobody pushes onto
the clients' stack once it is finished. -/
def Disciplined (i : ServerStack) (st : StackState ℕ) (label : StackLabel ℕ) : Prop :=
  Discipline (serverConsumers i) st label ∧
    Roles (serverConsumers i) (serverProducers i) st label ∧
      (i = .client → PushBeforeFinish st label)

theorem mem_serverConsumers : t ∈ serverConsumers i ↔ serverRole t = .worker i := by
  rw [serverRole]
  cases i with
  | client =>
      rw [serverConsumers, Finset.mem_range]
      split_ifs <;> simp_all
  | prefetch =>
      rw [serverConsumers, Finset.mem_Ico]
      split_ifs <;> simp_all

theorem lt_mainThread (hrole : serverRole t = .worker i) : t < mainThread := by
  have hmem := mem_serverConsumers.mpr hrole
  cases i with
  | client => exact Nat.lt_add_right _ (Finset.mem_range.mp hmem)
  | prefetch => exact (Finset.mem_Ico.mp hmem).2

theorem takesPart_server (ht : t ≤ mainThread) :
    TakesPart serverRole i (serverConsumers i) (serverProducers i) t := by
  refine ⟨mem_serverConsumers.mpr, fun hrole ↦ ?_⟩
  cases i with
  | client => exact Finset.mem_singleton.mpr (eq_mainThread ht hrole)
  | prefetch => exact mem_serverConsumers.mpr hrole

theorem SeenBy.inside_of_not_outside {pc : PoolPc ServerStack} {seen : StackPc ℕ}
    (h : SeenBy i pc seen) (hseen : ¬seen.Outside) : ∃ rest, pc = .inside i seen rest := by
  cases h with
  | inside _ rest => exact ⟨rest, rfl⟩
  | elsewhere _ hout => exact absurd hout hseen

/-- Only `main` pushes onto the clients' stack, and it does so in its loop. -/
theorem unfinished_of_push (hs : (serverSystem table).Reachable s) {pc : StackPc ℕ}
    {rest : Option (Status → Processing)} {job : ℕ}
    (hpc : (s.pool.threads t).pc = .inside .client pc rest)
    (hcalled : pc.called = some (.push job)) :
    (s.pool.jobStacks .client).stack.finished = false := by
  have hline := mainLine_reachable hs
  have hplays := plays_reachable (pool_reachable hs) t
  rw [hpc] at hplays
  rcases hplays.of_push hcalled with ⟨hrole, -⟩ | ⟨-, hprefetch⟩
  · have hmain : t = mainThread := by
      by_contra hne
      rw [hline.idle_of_main hrole hne] at hpc
      cases hpc
    subst hmain
    refine hline.unfinished (.inl ?_)
    have hat := hline.at_line
    rw [hpc] at hat
    cases hmainPc : s.mainPc with
    | signalled i =>
        rw [hmainPc] at hat
        obtain ⟨_, hinside, hsignal⟩ := hat.resolve_left nofun
        obtain ⟨-, rfl, -⟩ := PoolPc.inside.inj hinside
        rw [hcalled] at hsignal
        cases hsignal
    | signalling | joining | freeing | returned =>
        rw [hmainPc] at hat
        cases hat
    | _ => trivial
  · cases hprefetch

/-- Each stack of the server is the job stack under its discipline. -/
theorem server_refines_stack (i : ServerStack) :
    (serverSystem table).Refines
      ((jobStackSystem ℕ (serverMaxJobs i) (serverReserveSlots i)).guarded (Disciplined i))
      fun s st ↦ ShowsStack serverRole i s.pool st := by
  constructor
  · intro s h
    refine ⟨_, rfl, ?_⟩
    rw [h.1]
    exact ⟨rfl, fun _ ↦ .elsewhere nofun trivial, fun _ _ ↦ rfl⟩
  · intro s st l s' hs _ hshows h
    have hpool := pool_reachable hs
    rcases h.pool_step (mainLine_reachable hs) with hsame | ⟨t, ht, hstep⟩
    · exact ⟨st, .inl rfl, hsame ▸ hshows⟩
    · have hfits := (jobsOwned_reachable hpool).fits
      obtain ⟨st', hst', hshows'⟩ := hshows.step (takesPart_server ht) hfits
        (plays_reachable hpool t) ((prefetchApart_reachable hpool).threads t) hstep
      refine ⟨st', hst'.imp_right ?_, hshows'⟩
      rintro ⟨label, hlabel, hdiscipline, hroles⟩
      refine ⟨label, ⟨hdiscipline, hroles, ?_⟩, hlabel⟩
      rintro rfl
      cases label with
      | advance u =>
          intro job hlock
          have hseen := hshows.pcs u
          rw [hlock] at hseen
          obtain ⟨rest, hpc⟩ := hseen.inside_of_not_outside id
          rw [hshows.shared]
          exact unfinished_of_push hs hpc rfl
      | start | drop => trivial

/-! ## What both stacks keep -/

/-- The thread waits on a condition of the stack and nobody has woken it yet. -/
def PoolState.Waits (s : PoolState ServerStack) (i : ServerStack) (t : ℕ) (c : Cond) : Prop :=
  (∃ op rest, (s.threads t).pc = .inside i (.waiting c op) rest) ∧ t ∈ (s.jobStacks i).waiters c

theorem ShowsStack.waits_iff {p : PoolState ServerStack} (hs : ShowsStack serverRole i p st)
    {c : Cond} : st.Waits t c ↔ p.Waits i t c := by
  rw [StackState.Waits, PoolState.Waits, hs.shared]
  refine and_congr_left fun _ ↦ ?_
  have hseen := hs.pcs t
  constructor
  · rintro ⟨op, hop⟩
    rw [hop] at hseen
    obtain ⟨rest, hpc⟩ := hseen.inside_of_not_outside id
    exact ⟨op, rest, hpc⟩
  · rintro ⟨op, rest, hpc⟩
    rw [hpc] at hseen
    exact ⟨op, hseen.eq_of_inside⟩

/-- A stack of the server stays within its array, also if every popped job came back at once.  Its
workers do not all sleep while it has a job, and nobody waits for room while it is empty. -/
structure StackKept (i : ServerStack) (s : PoolState ServerStack) : Prop where
  nonneg : 0 ≤ (s.jobStacks i).stack.top
  room : (s.jobStacks i).stack.top +
      (holders (serverConsumers i) fun t ↦ (s.threads t).current).card ≤
    serverMaxJobs i + serverReserveSlots i
  written : ∀ index ∈ (s.jobStacks i).stack.written,
    0 ≤ index ∧ index ≤ serverMaxJobs i + serverReserveSlots i
  asleep : (∀ t ∈ serverConsumers i, s.Waits i t .notEmpty) → (s.jobStacks i).stack.top = 0
  full : (s.jobStacks i).stack.top = 0 → ∀ t ∈ serverProducers i, ¬s.Waits i t .notFull

/-- There are enough reserve slots for the consumers and enough room for the producers. -/
theorem server_sizes (i : ServerStack) :
    0 ≤ serverMaxJobs i ∧ (serverConsumers i).Nonempty ∧
      ((serverConsumers i).card : ℤ) ≤ serverReserveSlots i ∧
        ((serverProducers i).card : ℤ) ≤ serverMaxJobs i := by
  cases i <;> decide

theorem stackKept_reachable (hs : (serverSystem table).Reachable s) : StackKept i s.pool := by
  obtain ⟨st, hst, hshows⟩ := (server_refines_stack i).reachable hs
  obtain ⟨hmax, hconsumers, hreserve, hproducers⟩ := server_sizes i
  have hfits := (roomKept_reachable hmax hreserve (hst.guarded_mono fun _ _ h ↦ h.1)).fits
  have hcounted :=
    waitersCounted_reachable hconsumers hproducers (hst.guarded_mono fun _ _ h ↦ h.2.1)
  have hheld : holders (serverConsumers i) st.held =
      holders (serverConsumers i) fun t ↦ (s.pool.threads t).current := by
    refine Finset.filter_congr fun t ht ↦ ?_
    rw [hshows.held t (mem_serverConsumers.mp ht)]
  rw [hshows.shared, hheld] at hfits
  refine ⟨hfits.nonneg, hfits.room, hfits.written, fun hall ↦ ?_, fun htop t _ hwait ↦ ?_⟩
  · rw [← hshows.shared]
    exact hcounted.empty fun t ht ↦ (hshows.waits_iff.mpr (hall t ht)).2
  · have hroom := hcounted.room
    have hpos : 0 < (st.shared.waiters .notFull).card :=
      Finset.card_pos.mpr ⟨t, (hshows.waits_iff.mpr hwait).2⟩
    rw [hshows.shared] at hroom hpos
    omega

/-- The mutex of the clients' stack is owned by a thread that is inside an operation. -/
theorem clientMutex_owner (hs : (serverSystem table).Reachable s) :
    (s.pool.jobStacks .client).mutex = some t ↔
      ∃ pc rest, (s.pool.threads t).pc = .inside .client pc rest ∧ pc.Inside := by
  obtain ⟨st, hst, hshows⟩ := (server_refines_stack .client).reachable hs
  have howned := mutexOwned_reachable (hst.guarded_mono fun _ _ h ↦ h.2.2 rfl)
  rw [← hshows.shared, howned.owner]
  have hseen := hshows.pcs t
  constructor
  · intro hinside
    obtain ⟨rest, hpc⟩ := hseen.inside_of_not_outside fun hout ↦ hout.not_inside hinside
    exact ⟨_, rest, hpc, hinside⟩
  · rintro ⟨pc, rest, hpc, hinside⟩
    rw [hpc] at hseen
    rwa [hseen.eq_of_inside]

/-- Whatever the clients, the upstream servers and the scheduler do, a running server keeps both
stacks, and nobody but a thread inside an operation has the mutex of the clients' stack. -/
theorem server_keeps_stacks (hs : (serverSystem table).Reachable s) :
    (∀ i, StackKept i s.pool) ∧
      ∀ t, (s.pool.jobStacks .client).mutex = some t ↔
        ∃ pc rest, (s.pool.threads t).pc = .inside .client pc rest ∧ pc.Inside :=
  ⟨fun _ ↦ stackKept_reachable hs, fun _ ↦ clientMutex_owner hs⟩

/-- The first worker finds no job and waits for one. -/
theorem server_keeps_stacks_firstWorker :
    ∃ s : ServerState, s.pool.Waits .client 0 .notEmpty ∧ (∀ i, StackKept i s.pool) ∧
      ∀ t, (s.pool.jobStacks .client).mutex = some t ↔
        ∃ pc rest, (s.pool.threads t).pc = .inside .client pc rest ∧ pc.Inside := by
  have hinit : (serverSystem []).Reachable
      ⟨poolInit serverMaxJobs serverReserveSlots, .creating 0, false⟩ := .init ⟨rfl, rfl⟩
  have hcreate := hinit.step (.create (k := 0) rfl (by decide))
  have hpoll := hcreate.step (.worker (t := 0) (by decide) (.poll (i := .client) rfl rfl))
  have hlock := hpoll.step (.worker (t := 0) (by decide) (.inside rfl (.lock rfl)))
  have hwait := hlock.step (.worker (t := 0) (by decide)
    (.inside (i := .client) rfl (.wait (c := .notEmpty) rfl)))
  exact ⟨_, ⟨⟨_, _, rfl⟩, by simp [PoolState.move]⟩, server_keeps_stacks hwait⟩

end HttpProxy
