import HttpProxy.WorkerPool

/-!
# What a role calls

The stack operations a thread can be in, by what it was started with.
-/

namespace HttpProxy

open Transition

/-- The operation a thread is in, up to its return. -/
def StackPc.called {α : Type} : StackPc α → Option (StackOp α)
  | .idle => none
  | .testFinished job => some (.pushBack job)
  | .lock op => some op
  | .body op => some op
  | .waiting _ op => some op
  | .unlock op _ _ => some op
  | .returned op _ _ => some op

theorem StackStep.called_eq {α : Type} {t : ℕ} {sh sh' : StackShared α} {pc pc' : StackPc α}
    (h : StackStep t sh pc sh' pc') : pc'.called = pc.called := by
  cases h <;> rfl

variable {ι : Type}

/-- `main` pushes new jobs onto the clients' stack and signals the end. -/
def MainPlays (cfg : PoolConfig ι) : PoolPc ι → Prop
  | .idle => True
  | .inside i pc rest =>
      rest = none ∧
        ((∃ job, pc.called = some (.push job)) ∧ i = cfg.client ∨ pc.called = some .signalFinish)
  | _ => False

/-- A worker pops from its own stack, pushes back onto the clients' stack, and pushes new
jobs onto the prefetch stack in the middle of `process_job`. -/
def WorkerPlays (cfg : PoolConfig ι) (source : ι) : PoolPc ι → Prop
  | .inside i pc rest =>
      (∃ job, pc.called = some (.push job)) ∧ rest.isSome ∧ i = cfg.prefetch ∨
        pc.called = some .pop ∧ i = source ∨
          (∃ job, pc.called = some (.pushBack job)) ∧ i = cfg.client
  | _ => True

def Plays (cfg : PoolConfig ι) : Role ι → PoolPc ι → Prop
  | .main => MainPlays cfg
  | .worker source => WorkerPlays cfg source

section

variable {cfg : PoolConfig ι} {role : Role ι} {i : ι} {pc pc' : StackPc ℕ}
  {rest : Option (Status → Processing)}

@[simp] theorem plays_idle (cfg : PoolConfig ι) (role : Role ι) : Plays cfg role .idle := by
  cases role <;> trivial

/-- Moving on inside an operation. -/
theorem Plays.move (h : Plays cfg role (.inside i pc rest)) (hcalled : pc'.called = pc.called) :
    Plays cfg role (.inside i pc' rest) := by
  cases role with
  | main => simpa [Plays, MainPlays, hcalled] using h
  | worker source => simpa [Plays, WorkerPlays, hcalled] using h

theorem Plays.worker_of_working {code : Processing} (h : Plays cfg role (.working code)) :
    ∃ source, role = .worker source := by
  cases role with
  | main => exact h.elim
  | worker source => exact ⟨source, rfl⟩

theorem Plays.worker_of_pop (h : Plays cfg role (.inside i pc rest))
    (hcalled : pc.called = some .pop) : role = .worker i := by
  cases role with
  | main => simp [Plays, MainPlays, hcalled] at h
  | worker source =>
      obtain rfl : i = source := by simpa [Plays, WorkerPlays, hcalled] using h
      rfl

theorem Plays.worker_of_pushBack {job : ℕ} (h : Plays cfg role (.inside i pc rest))
    (hcalled : pc.called = some (.pushBack job)) :
    i = cfg.client ∧ ∃ source, role = .worker source := by
  cases role with
  | main => simp [Plays, MainPlays, hcalled] at h
  | worker source => exact ⟨by simpa [Plays, WorkerPlays, hcalled] using h, source, rfl⟩

/-- `main` pushes onto the clients' stack and a worker onto the prefetch stack. -/
theorem Plays.of_push {job : ℕ} (h : Plays cfg role (.inside i pc rest))
    (hcalled : pc.called = some (.push job)) :
    role = .main ∧ i = cfg.client ∨ (∃ source, role = .worker source) ∧ i = cfg.prefetch := by
  cases role with
  | main => exact .inl ⟨rfl, by simpa [Plays, MainPlays, hcalled] using h.2⟩
  | worker source =>
      have hprefetch : rest.isSome ∧ i = cfg.prefetch := by
        simpa [Plays, WorkerPlays, hcalled] using h
      exact .inr ⟨⟨source, rfl⟩, hprefetch.2⟩

/-- Only a worker has something to go on with after a push. -/
theorem Plays.worker_of_rest {k : Status → Processing}
    (h : Plays cfg role (.inside i pc (some k))) : ∃ source, role = .worker source := by
  cases role with
  | main => simp [Plays, MainPlays] at h
  | worker source => exact ⟨source, rfl⟩

theorem plays_stopped {source : ι} (hrole : role = .worker source) :
    Plays cfg role .stopped := by
  subst hrole
  trivial

theorem plays_working {source : ι} (hrole : role = .worker source) (code : Processing) :
    Plays cfg role (.working code) := by
  subst hrole
  trivial

end

variable [DecidableEq ι] {cfg : PoolConfig ι} {s s' : PoolState ι} {t : ℕ}

/-- Where the thread that takes a step is afterwards, it plays its role. -/
theorem PoolStep.plays (h : PoolStep cfg t s s')
    (hplays : Plays cfg (cfg.role t) (s.threads t).pc) :
    Plays cfg (cfg.role t) (s'.threads t).pc := by
  have hset : ∀ (s : PoolState ι) (pc : PoolPc ι) (current fresh : Option ℕ),
      Plays cfg (cfg.role t) pc →
        Plays cfg (cfg.role t) (Function.update s.threads t ⟨pc, current, fresh⟩ t).pc := by
    intro s pc current fresh h
    simpa using h
  cases h with
  | accept fd hrole hpc =>
      apply hset
      rw [hrole]
      exact ⟨rfl, .inl ⟨⟨_, rfl⟩, rfl⟩⟩
  | retry hpc =>
      rw [hpc] at hplays
      exact hset _ _ _ _ (hplays.move rfl)
  | accepted hpc => exact hset _ _ _ _ (plays_idle _ _)
  | signal i hrole hpc =>
      apply hset
      rw [hrole]
      exact ⟨rfl, .inr rfl⟩
  | signalled hpc => exact hset _ _ _ _ (plays_idle _ _)
  | poll hrole hpc =>
      apply hset
      rw [hrole]
      exact .inr (.inl ⟨rfl, rfl⟩)
  | finished hpc =>
      rw [hpc] at hplays
      exact hset _ _ _ _ (plays_stopped (hplays.worker_of_pop rfl))
  | again hpc => exact hset _ _ _ _ (plays_idle _ _)
  | process hpc =>
      rw [hpc] at hplays
      exact hset _ _ _ _ (plays_working (hplays.worker_of_pop rfl) _)
  | terminate hpc => exact hset _ _ _ _ (plays_idle _ _)
  | enqueue hpc =>
      rw [hpc] at hplays
      obtain ⟨source, hrole⟩ := hplays.worker_of_working
      apply hset
      rw [hrole]
      exact .inr (.inr ⟨⟨_, rfl⟩, rfl⟩)
  | pushedBack hpc => exact hset _ _ _ _ (plays_idle _ _)
  | pushBackFailed hpc => exact hset _ _ _ _ (plays_idle _ _)
  | call hpc =>
      rw [hpc] at hplays
      obtain ⟨source, hrole⟩ := hplays.worker_of_working
      exact hset _ _ _ _ (plays_working hrole _)
  | dispatch hpc =>
      rw [hpc] at hplays
      obtain ⟨source, hrole⟩ := hplays.worker_of_working
      apply hset
      rw [hrole]
      exact .inl ⟨⟨_, rfl⟩, rfl, rfl⟩
  | dispatched hpc =>
      rw [hpc] at hplays
      obtain ⟨source, hrole⟩ := hplays.worker_of_rest
      exact hset _ _ _ _ (plays_working hrole _)
  | inside hpc h =>
      rw [hpc] at hplays
      exact hset _ _ _ _ (hplays.move h.called_eq)

theorem plays_reachable {maxJobs reserveSlots : ι → ℤ}
    (hs : (workerPool cfg maxJobs reserveSlots).Reachable s) :
    ∀ t, Plays cfg (cfg.role t) (s.threads t).pc := by
  induction hs with
  | init h =>
      subst h
      exact fun t ↦ plays_idle _ _
  | @step s s' t _ h ih =>
      intro u
      by_cases hu : u = t
      · subst hu
        exact PoolStep.plays h (ih u)
      · rw [PoolStep.threads_ne h hu]
        exact ih u

end HttpProxy
