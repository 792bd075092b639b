import HttpProxy.Constants
import Mathlib.Logic.Function.Basic

/-!
# The job stack

The data of `thread-safe-job-stack.c` and, for each operation, the part it runs while
it owns the mutex.  Such a part either returns with the mutex still owned, waits on a
condition (the source then unlocks and reports FAIL), or unlocks and returns.

The jobs are pointers, so any type will do.
-/

namespace HttpProxy

/-- `struct job_stack` without its mutex and conditions.  `written` is not in the
source: it collects every index `job_stack_set_item` has been given. -/
structure JobStack (α : Type) where
  contentBase : ℤ → Option α
  top : ℤ
  maxJobCount : ℤ
  reserveJobCount : ℤ
  finished : Bool
  written : List ℤ

inductive Cond where
  | notEmpty
  | notFull
  deriving DecidableEq, Repr

/-- What an operation does to the threads waiting on the conditions. -/
inductive Wake where
  | nobody
  | signal (c : Cond)
  | broadcast (c : Cond)
  deriving DecidableEq, Repr

/-- How a locked part ends: `keep` returns without unlocking, `wait` is
`pthread_cond_wait`, `unlock` returns a status and perhaps a job. -/
inductive Exit (α : Type) where
  | keep (status : Status)
  | wait (c : Cond)
  | unlock (status : Status) (out : Option α)

structure Locked (α : Type) where
  stack : JobStack α
  wake : Wake
  exit : Exit α

variable {α : Type}

/-- The array has `max_jobs + reserve_slots + 1` slots. -/
def jobStackConstruct (maxJobs reserveSlots : ℤ) : JobStack α where
  contentBase := fun _ ↦ none
  top := 0
  maxJobCount := maxJobs
  reserveJobCount := reserveSlots
  finished := false
  written := []

def jobStackGetItem (stack : JobStack α) (index : ℤ) : Option α := stack.contentBase index

def jobStackSetItem (stack : JobStack α) (index : ℤ) (item : Option α) : JobStack α :=
  { stack with
    contentBase := Function.update stack.contentBase index item
    written := index :: stack.written }

def jobStackPush (stack : JobStack α) (ptrIn : α) : Locked α :=
  if stack.finished then
    ⟨stack, .nobody, .keep .finished⟩
  else if stack.top ≥ stack.maxJobCount then
    ⟨stack, .nobody, .wait .notFull⟩
  else
    let stored := jobStackSetItem stack stack.top (some ptrIn)
    ⟨{ stored with top := stored.top + 1 }, .signal .notEmpty, .unlock .success none⟩

/-- The loop of `job_stack_push_back`, from `i` down to `1`. -/
def shiftItems (stack : JobStack α) : ℕ → JobStack α
  | 0 => stack
  | i + 1 => shiftItems (jobStackSetItem stack (i + 1) (jobStackGetItem stack i)) i

/-- `job_stack_push_back` after its test of `finished`, which runs before the lock. -/
def jobStackPushBack (stack : JobStack α) (ptrIn : α) : Locked α :=
  let shifted := shiftItems stack stack.top.toNat
  let raised := { shifted with top := shifted.top + 1 }
  ⟨jobStackSetItem raised 0 (some ptrIn), .signal .notEmpty, .unlock .success none⟩

def jobStackPop (stack : JobStack α) : Locked α :=
  if stack.top = 0 ∧ stack.finished = false then
    ⟨stack, .nobody, .wait .notEmpty⟩
  else if stack.top = 0 then
    ⟨stack, .nobody, .unlock .finished none⟩
  else
    ⟨{ stack with top := stack.top - 1 }, .signal .notFull,
      .unlock .success (jobStackGetItem stack (stack.top - 1))⟩

def jobStackSignalFinish (stack : JobStack α) : Locked α :=
  ⟨{ stack with finished := true }, .broadcast .notEmpty, .unlock .success none⟩

/-- The four operations with their argument. -/
inductive StackOp (α : Type) where
  | push (job : α)
  | pushBack (job : α)
  | pop
  | signalFinish

def StackOp.run (stack : JobStack α) : StackOp α → Locked α
  | .push job => jobStackPush stack job
  | .pushBack job => jobStackPushBack stack job
  | .pop => jobStackPop stack
  | .signalFinish => jobStackSignalFinish stack

/-! ## What the locked parts change -/

@[simp] theorem shiftItems_top (stack : JobStack α) (i : ℕ) :
    (shiftItems stack i).top = stack.top := by
  induction i generalizing stack with
  | zero => rfl
  | succ i ih => simp [shiftItems, ih, jobStackSetItem]

@[simp] theorem shiftItems_maxJobCount (stack : JobStack α) (i : ℕ) :
    (shiftItems stack i).maxJobCount = stack.maxJobCount := by
  induction i generalizing stack with
  | zero => rfl
  | succ i ih => simp [shiftItems, ih, jobStackSetItem]

@[simp] theorem shiftItems_finished (stack : JobStack α) (i : ℕ) :
    (shiftItems stack i).finished = stack.finished := by
  induction i generalizing stack with
  | zero => rfl
  | succ i ih => simp [shiftItems, ih, jobStackSetItem]

theorem mem_shiftItems_written {stack : JobStack α} {i : ℕ} {index : ℤ}
    (h : index ∈ (shiftItems stack i).written) :
    index ∈ stack.written ∨ 1 ≤ index ∧ index ≤ i := by
  induction i generalizing stack with
  | zero => exact .inl h
  | succ i ih =>
      rcases ih h with hold | ⟨hlow, hhigh⟩
      · rcases List.mem_cons.mp hold with rfl | hold
        · exact .inr ⟨by omega, by push_cast; omega⟩
        · exact .inl hold
      · exact .inr ⟨hlow, by push_cast; omega⟩

/-- The loop moves every slot below `i` up by one. -/
theorem shiftItems_contentBase (stack : JobStack α) (i : ℕ) (index : ℤ) :
    (shiftItems stack i).contentBase index =
      if 1 ≤ index ∧ index ≤ i then stack.contentBase (index - 1)
      else stack.contentBase index := by
  induction i generalizing stack with
  | zero =>
      rw [if_neg (by omega)]
      rfl
  | succ i ih =>
      simp only [shiftItems, ih, jobStackSetItem, jobStackGetItem, Function.update_apply]
      by_cases hlast : index = i + 1
      · subst hlast
        rw [if_neg (by omega), if_pos rfl, if_pos (by push_cast; omega)]
        congr 1
        omega
      · by_cases hin : 1 ≤ index ∧ index ≤ i
        · rw [if_pos hin, if_neg (by omega), if_pos (by push_cast; omega)]
        · rw [if_neg hin, if_neg hlast, if_neg (by push_cast; omega)]

/-- All that a locked part can do: nothing, a push below `max_job_count`, a push to
the bottom, a pop, or setting `finished`. -/
inductive LockedChange (stack : JobStack α) : StackOp α → Locked α → Prop
  | refused (job : α) (hfin : stack.finished = true) :
      LockedChange stack (.push job) ⟨stack, .nobody, .keep .finished⟩
  | full (job : α) (hfin : stack.finished = false) (htop : stack.maxJobCount ≤ stack.top) :
      LockedChange stack (.push job) ⟨stack, .nobody, .wait .notFull⟩
  | pushed (job : α) (hfin : stack.finished = false) (htop : stack.top < stack.maxJobCount) :
      LockedChange stack (.push job)
        ⟨{ jobStackSetItem stack stack.top (some job) with top := stack.top + 1 },
          .signal .notEmpty, .unlock .success none⟩
  | pushedBack (job : α) :
      LockedChange stack (.pushBack job) (jobStackPushBack stack job)
  | empty (htop : stack.top = 0) (hfin : stack.finished = false) :
      LockedChange stack .pop ⟨stack, .nobody, .wait .notEmpty⟩
  | drained (htop : stack.top = 0) (hfin : stack.finished = true) :
      LockedChange stack .pop ⟨stack, .nobody, .unlock .finished none⟩
  | popped (htop : stack.top ≠ 0) :
      LockedChange stack .pop
        ⟨{ stack with top := stack.top - 1 }, .signal .notFull,
          .unlock .success (jobStackGetItem stack (stack.top - 1))⟩
  | signalled :
      LockedChange stack .signalFinish
        ⟨{ stack with finished := true }, .broadcast .notEmpty, .unlock .success none⟩

theorem StackOp.run_change (stack : JobStack α) (op : StackOp α) :
    LockedChange stack op (op.run stack) := by
  cases op with
  | push job =>
      simp only [StackOp.run, jobStackPush]
      split
      next hfin => exact .refused job hfin
      next hfin =>
        split
        next htop => exact .full job (by simpa using hfin) htop
        next htop => exact .pushed job (by simpa using hfin) (by omega)
  | pushBack job => exact .pushedBack job
  | pop =>
      simp only [StackOp.run, jobStackPop]
      split
      next h => exact .empty h.1 h.2
      next h =>
        split
        next htop => exact .drained htop (by simpa [htop] using h)
        next htop => exact .popped htop
  | signalFinish => exact .signalled

end HttpProxy
