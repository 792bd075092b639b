import HttpProxy.JobStackMutex
import HttpProxy.JobStackWakeups
import HttpProxy.PrefetchApart

/-!
# A stack of the server on its own

What the workers and `main` do to one of the two stacks is a run of that stack's own system,
in which the workers that pop from it push back what they popped, and the others only push.
So whatever holds of a stack under that discipline holds of both stacks of the server.
-/

namespace HttpProxy

open Transition Ownership

variable {table : BlockTable} {role : ℕ → Role ServerStack} {s s' : PoolState ServerStack}
  {t : ℕ} {maxJobs reserveSlots : ServerStack → ℤ} {i j : ServerStack} {st : StackState ℕ}
  {consumers producers : Finset ℕ}

/-- Who pushes new jobs onto the stack. -/
def producerRole : ServerStack → Role ServerStack
  | .client => .main
  | .prefetch => .worker .client

structure TakesPart (role : ℕ → Role ServerStack) (i : ServerStack)
    (consumers producers : Finset ℕ) (t : ℕ) : Prop where
  consumer : role t = .worker i → t ∈ consumers
  producer : role t = producerRole i → t ∈ producers

/-- Where the stack sees a thread of the pool.  A thread that has gone on to something else
is still seen at its return. -/
inductive SeenBy (i : ServerStack) : PoolPc ServerStack → StackPc ℕ → Prop
  | inside (pc : StackPc ℕ) (rest : Option (Status → Processing)) : SeenBy i (.inside i pc rest) pc
  | elsewhere {pc : PoolPc ServerStack} {seen : StackPc ℕ}
      (hpc : ∀ pc' rest, pc ≠ .inside i pc' rest) (hout : seen.Outside) : SeenBy i pc seen

/-- The part of the pool that the stack `i` sees. -/
structure ShowsStack (role : ℕ → Role ServerStack) (i : ServerStack) (s : PoolState ServerStack)
    (st : StackState ℕ) : Prop where
  shared : st.shared = s.jobStacks i
  pcs : ∀ t, SeenBy i (s.threads t).pc (st.pcs t)
  held : ∀ t, role t = .worker i → st.held t = (s.threads t).current

/-- A step of the pool from what the stack sees is a step of the stack's own system, or none. -/
def StackFollows (role : ℕ → Role ServerStack) (i : ServerStack) (consumers producers : Finset ℕ)
    (st : StackState ℕ) (s' : PoolState ServerStack) : Prop :=
  ∃ st', (st' = st ∨ ∃ label, StackRunStep st label st' ∧ Discipline consumers st label ∧
      Roles consumers producers st label) ∧
    ShowsStack role i s' st'

theorem SeenBy.outside {pc : PoolPc ServerStack} {seen : StackPc ℕ} (h : SeenBy i pc seen)
    (hpc : ∀ pc' rest, pc = .inside i pc' rest → pc'.Outside) : seen.Outside := by
  cases h with
  | inside pc' rest => exact hpc _ _ rfl
  | elsewhere _ hout => exact hout

theorem SeenBy.eq_of_inside {pc seen : StackPc ℕ} {rest : Option (Status → Processing)}
    (h : SeenBy i (.inside i pc rest) seen) : seen = pc := by
  cases h with
  | inside => rfl
  | elsewhere hpc => exact absurd rfl (hpc _ _)

/-- What the stack sees of the threads after one of them has moved. -/
theorem ShowsStack.update {thread : PoolThread ServerStack} {seen : StackPc ℕ}
    (shared : StackShared ℕ) (hand : Option ℕ) (hs : ShowsStack role i s st)
    (hshared : shared = s'.jobStacks i)
    (hthreads : s'.threads = Function.update s.threads t thread)
    (hseen : SeenBy i thread.pc seen) (hhand : role t = .worker i → hand = thread.current) :
    ShowsStack role i s'
      ⟨shared, Function.update st.pcs t seen, Function.update st.held t hand⟩ := by
  refine ⟨hshared, fun u ↦ ?_, fun u hu ↦ ?_⟩
  · by_cases hut : u = t
    · subst hut
      simpa [hthreads] using hseen
    · simpa [hthreads, hut] using hs.pcs u
  · by_cases hut : u = t
    · subst hut
      simpa [hthreads] using hhand hu
    · simpa [hthreads, hut] using hs.held u hu

/-- The thread goes on to something that is no operation of a stack, and may let go of the
job it has popped. -/
theorem ShowsStack.goesOn {pc : PoolPc ServerStack} {current fresh : Option ℕ}
    (hs : ShowsStack role i s st) (hstacks : s'.jobStacks = s.jobStacks)
    (hthreads : s'.threads = Function.update s.threads t ⟨pc, current, fresh⟩)
    (hout : ∀ pc' rest, (s.threads t).pc = .inside i pc' rest → pc'.Outside)
    (hpc : ∀ j pc' rest, pc ≠ .inside j pc' rest)
    (hcurrent : current = (s.threads t).current ∨ current = none) :
    StackFollows role i consumers producers st s' := by
  have hseen := (hs.pcs t).outside hout
  have helsewhere : SeenBy i pc (st.pcs t) := .elsewhere (hpc i) hseen
  rcases hcurrent with hsame | hnone
  · have hafter := hs.update st.shared (st.held t) (by rw [hstacks, hs.shared])
      hthreads helsewhere fun hrole ↦ (hs.held t hrole).trans hsame.symm
    rw [Function.update_eq_self, Function.update_eq_self] at hafter
    exact ⟨st, .inl rfl, hafter⟩
  · have hafter := hs.update st.shared none (by rw [hstacks, hs.shared])
      hthreads helsewhere fun _ ↦ hnone.symm
    rw [Function.update_eq_self] at hafter
    exact ⟨_, .inr ⟨.drop t, .drop hseen, trivial, trivial⟩, hafter⟩

/-- The thread calls an operation of the stack `j`. -/
theorem ShowsStack.calls {rest : Option (Status → Processing)} {fresh : Option ℕ}
    (op : StackOp ℕ) (hs : ShowsStack role i s st) (hstacks : s'.jobStacks = s.jobStacks)
    (hthreads : s'.threads = Function.update s.threads t
      ⟨.inside j op.enter rest, (s.threads t).current, fresh⟩)
    (hout : ∀ pc' rest, (s.threads t).pc = .inside i pc' rest → pc'.Outside)
    (hallowed : j = i → Discipline consumers st (.start t op) ∧
      Roles consumers producers st (.start t op)) :
    StackFollows role i consumers producers st s' := by
  have hseen := (hs.pcs t).outside hout
  have hshared : st.shared = s'.jobStacks i := by rw [hstacks, hs.shared]
  have hheld : role t = .worker i → st.held t = (s.threads t).current := hs.held t
  by_cases hji : j = i
  · subst hji
    obtain ⟨hdiscipline, hroles⟩ := hallowed rfl
    have hafter := hs.update _ _ hshared hthreads (.inside op.enter rest) hheld
    rw [Function.update_eq_self] at hafter
    exact ⟨_, .inr ⟨.start t op, .start op hseen, hdiscipline, hroles⟩, hafter⟩
  · have hafter := hs.update _ _ hshared hthreads
      (.elsewhere (fun _ _ h ↦ hji (PoolPc.inside.inj h).1) hseen) hheld
    rw [Function.update_eq_self, Function.update_eq_self] at hafter
    exact ⟨st, .inl rfl, hafter⟩

theorem handAfter_of_push {hand : Option ℕ} {pc pc' : StackPc ℕ} {job : ℕ}
    (h : pc.called = some (.push job)) : handAfter hand pc pc' = hand := by
  unfold handAfter
  split
  · cases h
  · cases h
  · rfl

/-- A worker that is inside another stack than its own pushes a new job. -/
theorem calls_push_elsewhere {pc : StackPc ℕ} {rest : Option (Status → Processing)}
    (hplays : Plays (serverConfig role (RunsProcessJob table)) (role t) (.inside j pc rest))
    (hself : Behaves (role t) (.inside j pc rest)) (hrole : role t = .worker i) (hji : j ≠ i) :
    ∃ job, pc.called = some (.push job) := by
  rw [hrole] at hplays
  rcases hplays with ⟨hpush, -, -⟩ | ⟨-, hown⟩ | ⟨⟨job, hback⟩, hclient⟩
  · exact hpush
  · exact absurd hown hji
  · have hprefetch : i = .prefetch := by
      cases i with
      | client => exact absurd hclient hji
      | prefetch => rfl
    rw [hprefetch] at hrole
    have hpop := hself.of_prefetch hrole
    rw [hback] at hpop
    cases hpop

/-- A step inside an operation, of this stack or of another one. -/
theorem ShowsStack.movesInside {pc pc' : StackPc ℕ} {rest : Option (Status → Processing)}
    {shared : StackShared ℕ} (hs : ShowsStack role i s st)
    (hplays : Plays (serverConfig role (RunsProcessJob table)) (role t) (s.threads t).pc)
    (hself : Behaves (role t) (s.threads t).pc) (hpc : (s.threads t).pc = .inside j pc rest)
    (h : StackStep t (s.jobStacks j) pc shared pc') :
    StackFollows role i consumers producers st (s.move t j rest pc pc' shared) := by
  have hseen := hs.pcs t
  rw [hpc] at hplays hself hseen
  by_cases hji : j = i
  · subst hji
    rw [← hs.shared] at h
    have hafter : ShowsStack role j (s.move t j rest pc pc' shared) _ :=
      hs.update shared (handAfter (st.held t) pc pc')
        (Function.update_self j shared s.jobStacks).symm rfl (.inside pc' rest)
        fun hrole ↦ congrArg (handAfter · pc pc') (hs.held t hrole)
    exact ⟨_, .inr ⟨.advance t, .of_pc pc hseen.eq_of_inside h, trivial, trivial⟩, hafter⟩
  · have hout : (st.pcs t).Outside :=
      hseen.outside fun _ _ h ↦ absurd (PoolPc.inside.inj h).1 hji
    have hkept : role t = .worker i →
        st.held t = handAfter (s.threads t).current pc pc' := by
      intro hrole
      obtain ⟨job, hpush⟩ := calls_push_elsewhere hplays hself hrole hji
      rw [handAfter_of_push hpush, hs.held t hrole]
    have hafter : ShowsStack role i (s.move t j rest pc pc' shared) _ :=
      hs.update st.shared (st.held t)
        (hs.shared.trans (Function.update_of_ne (Ne.symm hji) _ _).symm) rfl
        (.elsewhere (fun _ _ h ↦ hji (PoolPc.inside.inj h).1) hout) hkept
    rw [Function.update_eq_self, Function.update_eq_self] at hafter
    exact ⟨st, .inl rfl, hafter⟩

theorem producer_of_push {pc : StackPc ℕ} {rest : Option (Status → Processing)} {job : ℕ}
    (hplays : Plays (serverConfig role (RunsProcessJob table)) (role t) (.inside j pc rest))
    (hself : Behaves (role t) (.inside j pc rest)) (hpush : pc.called = some (.push job)) :
    role t = producerRole j := by
  rcases hplays.of_push hpush with ⟨hmain, rfl⟩ | ⟨⟨source, hworker⟩, rfl⟩
  · exact hmain
  · cases source with
    | client => exact hworker
    | prefetch =>
        have hpop := hself.of_prefetch hworker
        rw [hpush] at hpop
        cases hpop

/-- A worker in the middle of `process_job`: a prefetch worker neither dispatches a job nor
puts one back. -/
theorem clientWorker_of_working {code : Processing}
    (hplays : Plays (serverConfig role (RunsProcessJob table)) (role t) (.working code))
    (hself : Behaves (role t) (.working code))
    (hcode : ¬code.Within (JobCalls (-1)) fun result ↦ result.1 = .terminate) :
    role t = .worker .client := by
  obtain ⟨source, hrole⟩ := hplays.worker_of_working
  cases source with
  | client => exact hrole
  | prefetch =>
      rw [hrole] at hself
      exact absurd hself hcode

/-- The step of the simulation: one case for each line of the pool. -/
theorem ShowsStack.step (hpart : TakesPart role i consumers producers t)
    (hs : ShowsStack role i s st) (hfits : PoolFits s)
    (hplays : Plays (serverConfig role (RunsProcessJob table)) (role t) (s.threads t).pc)
    (hself : Behaves (role t) (s.threads t).pc)
    (h : PoolStep (serverConfig role (RunsProcessJob table)) t s s') :
    StackFollows role i consumers producers st s' := by
  cases h with
  | inside hpc h => exact hs.movesInside hplays hself hpc h
  | accept fd hrole hpc =>
      refine hs.calls (.push s.next) rfl rfl (by simp [hpc]) fun hi ↦ ⟨trivial, ?_⟩
      subst hi
      exact hpart.producer hrole
  | @retry j job out hpc =>
      refine hs.calls (.push job) rfl rfl (by simp [hpc, StackPc.Outside])
        fun hi ↦ ⟨trivial, ?_⟩
      rw [hpc] at hplays hself
      subst hi
      exact hpart.producer (producer_of_push hplays hself rfl)
  | signal j hrole hpc =>
      exact hs.calls .signalFinish rfl rfl (by simp [hpc]) fun _ ↦ ⟨trivial, trivial⟩
  | @poll j hrole hpc =>
      refine hs.calls .pop rfl rfl (by simp [hpc]) fun hi ↦ ?_
      subst hi
      have ht := hpart.consumer hrole
      exact ⟨⟨ht, (hs.held t hrole).trans (hfits.at hpc).1⟩, ht⟩
  | @enqueue job left hpc hjob =>
      rw [hpc] at hplays hself
      have hclient := clientWorker_of_working hplays hself
        fun h ↦ absurd (show JobStatus.enqueue = .terminate from h) (by simp)
      refine hs.calls (.pushBack job) rfl rfl (by simp [hpc]) fun hi ↦ ?_
      subst hi
      have ht := hpart.consumer hclient
      exact ⟨⟨ht, (hs.held t hclient).trans hjob⟩, ht⟩
  | dispatch hpc =>
      rw [hpc] at hplays hself
      have hclient := clientWorker_of_working hplays hself fun h ↦ absurd rfl h.1.1
      refine hs.calls (.push s.next) rfl rfl (by simp [hpc]) fun hi ↦ ⟨trivial, ?_⟩
      subst hi
      exact hpart.producer hclient
  | accepted hpc | signalled hpc | again hpc | pushedBack hpc | process hpc | finished hpc
  | call hpc | dispatched hpc =>
      exact hs.goesOn rfl rfl (by simp [hpc, StackPc.Outside]) (by simp) (.inl rfl)
  | terminate hpc hjob | pushBackFailed hpc =>
      exact hs.goesOn rfl rfl (by simp [hpc, StackPc.Outside]) (by simp) (.inr rfl)

end HttpProxy
