import HttpProxy.JobStackRuns
import HttpProxy.System

/-!
# Workers and their job stacks

Any number of threads run `worker_main` or the accepting loop of `main` over a family of
job stacks.  A worker pops from its own stack, runs `process_job` and destructs the job or
pushes it back onto the clients' stack; while `process_job` runs it may construct further
jobs for the prefetch stack.  The stack operations interleave at the steps of
`JobStackRuns`.

A job is named by the number of jobs constructed before it.  `process_job` is any relation
between a job and the code that is run on it.
-/

namespace HttpProxy

open Transition Interaction

/-- What a thread was started with: `worker_main` on a stack, or the loop of `main`. -/
inductive Role (ι : Type) where
  | worker (source : ι)
  | main
  deriving DecidableEq, Repr

/-- Code that `process_job` runs, with what it tells the worker loop at its end. -/
abbrev Processing := Worker (JobStatus × Job)

/-- Where a thread is.  Inside a stack operation it may have code to go on with after a
push of its own. -/
inductive PoolPc (ι : Type) where
  | idle
  | inside (stack : ι) (pc : StackPc ℕ) (rest : Option (Status → Processing))
  | working (code : Processing)
  | stopped

/-- A thread with the job it has popped and the job it has constructed and not yet handed
to a stack. -/
structure PoolThread (ι : Type) where
  pc : PoolPc ι
  current : Option ℕ
  fresh : Option ℕ

inductive JobEvent where
  | accepted (job : ℕ)
  | dispatched (job : ℕ)
  | pushed (job : ℕ)
  | pushedBack (job : ℕ)
  | popped (job : ℕ)
  | processed (job : ℕ)
  | destructed (job : ℕ)
  deriving DecidableEq, Repr

/-- The stacks, the threads and the jobs constructed so far.  `log` is not in the source:
it collects what has happened to the jobs. -/
structure PoolState (ι : Type) where
  jobStacks : ι → StackShared ℕ
  threads : ℕ → PoolThread ι
  jobs : ℕ → Job
  next : ℕ
  log : List JobEvent

/-- Who runs what, the stack clients are accepted and pushed back on, the stack prefetch
jobs go to, and the code a job may be processed by. -/
structure PoolConfig (ι : Type) where
  role : ℕ → Role ι
  client : ι
  prefetch : ι
  process : Job → Processing → Prop

/-- What a step inside a stack operation does to the jobs. -/
def stackEvents : StackPc ℕ → StackPc ℕ → List JobEvent
  | .body (.push job), .unlock _ .success _ => [.pushed job]
  | .body (.pushBack job), .unlock _ .success _ => [.pushedBack job]
  | .body .pop, .unlock _ .success (some job) => [.popped job]
  | _, _ => []

/-- A push that succeeds takes the new job out of its thread's hands. -/
def freshAfter (fresh : Option ℕ) : StackPc ℕ → StackPc ℕ → Option ℕ
  | .body (.push _), .unlock _ .success _ => none
  | _, _ => fresh

section

variable {ι : Type} [DecidableEq ι]

def PoolState.setThread (s : PoolState ι) (t : ℕ) (thread : PoolThread ι) : PoolState ι :=
  { s with threads := Function.update s.threads t thread }

def PoolState.setPc (s : PoolState ι) (t : ℕ) (pc : PoolPc ι) : PoolState ι :=
  s.setThread t { s.threads t with pc := pc }

/-- `job_construct`: the new job is in the hands of its thread. -/
def PoolState.construct (s : PoolState ι) (t : ℕ) (pc : PoolPc ι) (job : Job)
    (event : JobEvent) : PoolState ι where
  jobStacks := s.jobStacks
  threads := Function.update s.threads t ⟨pc, (s.threads t).current, some s.next⟩
  jobs := Function.update s.jobs s.next job
  next := s.next + 1
  log := s.log ++ [event]

/-- `job_destruct` on the job the thread has popped, back to the top of the worker loop. -/
def PoolState.destruct (s : PoolState ι) (t job : ℕ) : PoolState ι :=
  { s.setThread t ⟨.idle, none, (s.threads t).fresh⟩ with
    log := s.log ++ [.destructed job] }

/-- The thread lets the job it has constructed go, whether or not a stack has it. -/
def PoolState.forget (s : PoolState ι) (t : ℕ) (pc : PoolPc ι) : PoolState ι :=
  s.setThread t ⟨pc, (s.threads t).current, none⟩

/-- A step inside an operation of one of the stacks. -/
def PoolState.move (s : PoolState ι) (t : ℕ) (i : ι) (rest : Option (Status → Processing))
    (pc pc' : StackPc ℕ) (shared : StackShared ℕ) : PoolState ι where
  jobStacks := Function.update s.jobStacks i shared
  threads := Function.update s.threads t
    ⟨.inside i pc' rest, handAfter (s.threads t).current pc pc',
      freshAfter (s.threads t).fresh pc pc'⟩
  jobs := s.jobs
  next := s.next
  log := s.log ++ stackEvents pc pc'

inductive PoolStep (cfg : PoolConfig ι) (t : ℕ) : PoolState ι → PoolState ι → Prop
  -- the loop of `main`
  | accept {s : PoolState ι} (fd : ℤ) (hrole : cfg.role t = .main)
      (hpc : (s.threads t).pc = .idle) :
      PoolStep cfg t s (s.construct t (.inside cfg.client (.lock (.push s.next)) none)
        (jobConstruct fd) (.accepted s.next))
  | retry {s : PoolState ι} {i : ι} {job : ℕ} {out : Option ℕ}
      (hpc : (s.threads t).pc = .inside i (.returned (.push job) .fail out) none) :
      PoolStep cfg t s (s.setPc t (.inside i (.lock (.push job)) none))
  | accepted {s : PoolState ι} {i : ι} {job : ℕ} {status : Status} {out : Option ℕ}
      (hpc : (s.threads t).pc = .inside i (.returned (.push job) status out) none)
      (hstatus : status ≠ .fail) : PoolStep cfg t s (s.forget t .idle)
  | signal {s : PoolState ι} (i : ι) (hrole : cfg.role t = .main)
      (hpc : (s.threads t).pc = .idle) :
      PoolStep cfg t s (s.setPc t (.inside i (.lock .signalFinish) none))
  | signalled {s : PoolState ι} {i : ι} {status : Status} {out : Option ℕ}
      (hpc : (s.threads t).pc = .inside i (.returned .signalFinish status out) none) :
      PoolStep cfg t s (s.setPc t .idle)
  -- the loop of `worker_main`
  | poll {s : PoolState ι} {i : ι} (hrole : cfg.role t = .worker i)
      (hpc : (s.threads t).pc = .idle) :
      PoolStep cfg t s (s.setPc t (.inside i (.lock .pop) none))
  | finished {s : PoolState ι} {i : ι} {out : Option ℕ}
      (hpc : (s.threads t).pc = .inside i (.returned .pop .finished out) none) :
      PoolStep cfg t s (s.setPc t .stopped)
  | again {s : PoolState ι} {i : ι} {out : Option ℕ}
      (hpc : (s.threads t).pc = .inside i (.returned .pop .fail out) none) :
      PoolStep cfg t s (s.setPc t .idle)
  | process {s : PoolState ι} {i : ι} {job : ℕ} {code : Processing}
      (hpc : (s.threads t).pc = .inside i (.returned .pop .success (some job)) none)
      (hcode : cfg.process (s.jobs job) code) :
      PoolStep cfg t s { s.setPc t (.working code) with log := s.log ++ [.processed job] }
  | terminate {s : PoolState ι} {job : ℕ} {left : Job}
      (hpc : (s.threads t).pc = .working (.ret (.terminate, left)))
      (hjob : (s.threads t).current = some job) : PoolStep cfg t s (s.destruct t job)
  | enqueue {s : PoolState ι} {job : ℕ} {left : Job}
      (hpc : (s.threads t).pc = .working (.ret (.enqueue, left)))
      (hjob : (s.threads t).current = some job) :
      PoolStep cfg t s
        { s.setPc t (.inside cfg.client (.testFinished job) none) with
          jobs := Function.update s.jobs job left }
  | pushedBack {s : PoolState ι} {i : ι} {job : ℕ} {out : Option ℕ}
      (hpc : (s.threads t).pc = .inside i (.returned (.pushBack job) .success out) none) :
      PoolStep cfg t s (s.setPc t .idle)
  | pushBackFailed {s : PoolState ι} {i : ι} {job : ℕ} {status : Status} {out : Option ℕ}
      (hpc : (s.threads t).pc = .inside i (.returned (.pushBack job) status out) none)
      (hstatus : status ≠ .success) : PoolStep cfg t s (s.destruct t job)
  -- `process_job`
  | call {s : PoolState ι} {op : Op} {k : Resp op → Processing}
      (hpc : (s.threads t).pc = .working (.call op k)) (hop : ∀ job, op ≠ .jobStackPush job)
      (r : Resp op) : PoolStep cfg t s (s.setPc t (.working (k r)))
  | dispatch {s : PoolState ι} {job : Job} {k : Status → Processing}
      (hpc : (s.threads t).pc = .working (.call (.jobStackPush job) k)) :
      PoolStep cfg t s (s.construct t
        (.inside cfg.prefetch (.lock (.push s.next)) (some k)) job (.dispatched s.next))
  | dispatched {s : PoolState ι} {i : ι} {job : ℕ} {status : Status} {out : Option ℕ}
      {k : Status → Processing}
      (hpc : (s.threads t).pc = .inside i (.returned (.push job) status out) (some k)) :
      PoolStep cfg t s (s.forget t (.working (k status)))
  -- inside a stack operation
  | inside {s : PoolState ι} {i : ι} {rest : Option (Status → Processing)}
      {pc pc' : StackPc ℕ} {shared : StackShared ℕ}
      (hpc : (s.threads t).pc = .inside i pc rest)
      (h : StackStep t (s.jobStacks i) pc shared pc') :
      PoolStep cfg t s (s.move t i rest pc pc' shared)

/-- Every stack starts with its own sizes, and no job has been constructed. -/
def poolInit (maxJobs reserveSlots : ι → ℤ) : PoolState ι where
  jobStacks i := ⟨jobStackConstruct (maxJobs i) (reserveSlots i), none, fun _ ↦ ∅⟩
  threads _ := ⟨.idle, none, none⟩
  jobs _ := jobConstruct 0
  next := 0
  log := []

def workerPool (cfg : PoolConfig ι) (maxJobs reserveSlots : ι → ℤ) : System (PoolState ι) ℕ where
  Init s := s = poolInit maxJobs reserveSlots
  Step s t s' := PoolStep cfg t s s'

/-- A step moves no other thread. -/
theorem PoolStep.threads_ne {cfg : PoolConfig ι} {t : ℕ} {s s' : PoolState ι}
    (h : PoolStep cfg t s s') {u : ℕ} (hu : u ≠ t) : s'.threads u = s.threads u := by
  cases h <;> exact Function.update_of_ne hu _ _

end

end HttpProxy
