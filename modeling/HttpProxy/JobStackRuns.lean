import HttpProxy.JobStack
import HttpProxy.Lib.TransitionSystem
import Mathlib.Data.Finset.Card
import Mathlib.Tactic.Common

/-!
# Threads on a job stack

Any number of threads call the four operations of one stack in any interleaving.  Each
operation is cut where other threads can run: before the lock, inside it, at a
condition wait and before the unlock.  The test of `finished` that
`job_stack_push_back` makes without the lock is a step of its own.
-/

namespace HttpProxy

open Transition

variable {α : Type}

/-- The stack with its mutex, by the thread that owns it, and the threads waiting on
each condition that nobody has woken yet. -/
structure StackShared (α : Type) where
  stack : JobStack α
  mutex : Option ℕ
  waiters : Cond → Finset ℕ

/-- Where a thread is with respect to the stack. -/
inductive StackPc (α : Type) where
  | idle
  | testFinished (job : α)
  | lock (op : StackOp α)
  | body (op : StackOp α)
  | waiting (c : Cond) (op : StackOp α)
  | unlock (op : StackOp α) (status : Status) (out : Option α)
  | returned (op : StackOp α) (status : Status) (out : Option α)

/-- The first thing an operation does. -/
def StackOp.enter : StackOp α → StackPc α
  | .pushBack job => .testFinished job
  | op => .lock op

/-- The thread is not inside any operation. -/
def StackPc.Outside : StackPc α → Prop
  | .idle => True
  | .returned _ _ _ => True
  | _ => False

/-- The thread is at a line where it owns the mutex. -/
def StackPc.Inside : StackPc α → Prop
  | .body _ => True
  | .unlock _ _ _ => True
  | _ => False

/-- The waiting threads after a wake: a signal wakes at least one of them if there is
one, a broadcast wakes all. -/
inductive Woken (ws : Cond → Finset ℕ) : Wake → (Cond → Finset ℕ) → Prop
  | nobody : Woken ws .nobody ws
  | signal {c : Cond} (left : Finset ℕ) (hsub : left ⊆ ws c)
      (hone : (ws c).Nonempty → left ≠ ws c) :
      Woken ws (.signal c) (Function.update ws c left)
  | broadcast {c : Cond} : Woken ws (.broadcast c) (Function.update ws c ∅)

inductive StackStep (t : ℕ) : StackShared α → StackPc α → StackShared α → StackPc α → Prop
  | testFail {sh : StackShared α} {job : α} (hfin : sh.stack.finished = true) :
      StackStep t sh (.testFinished job) sh (.returned (.pushBack job) .fail none)
  | testPass {sh : StackShared α} {job : α} (hfin : sh.stack.finished = false) :
      StackStep t sh (.testFinished job) sh (.lock (.pushBack job))
  | lock {sh : StackShared α} {op : StackOp α} (hfree : sh.mutex = none) :
      StackStep t sh (.lock op) { sh with mutex := some t } (.body op)
  | keep {sh : StackShared α} {op : StackOp α} {stack : JobStack α} {status : Status}
      (hrun : op.run sh.stack = ⟨stack, .nobody, .keep status⟩) :
      StackStep t sh (.body op) { sh with stack := stack } (.returned op status none)
  | wait {sh : StackShared α} {op : StackOp α} {stack : JobStack α} {c : Cond}
      (hrun : op.run sh.stack = ⟨stack, .nobody, .wait c⟩) :
      StackStep t sh (.body op)
        ⟨stack, none, Function.update sh.waiters c (insert t (sh.waiters c))⟩ (.waiting c op)
  | leave {sh : StackShared α} {op : StackOp α} {stack : JobStack α} {wake : Wake}
      {status : Status} {out : Option α} {waiters : Cond → Finset ℕ}
      (hrun : op.run sh.stack = ⟨stack, wake, .unlock status out⟩)
      (hwake : Woken sh.waiters wake waiters) :
      StackStep t sh (.body op) ⟨stack, sh.mutex, waiters⟩ (.unlock op status out)
  | spurious {sh : StackShared α} {op : StackOp α} {c : Cond} :
      StackStep t sh (.waiting c op)
        { sh with waiters := Function.update sh.waiters c ((sh.waiters c).erase t) }
        (.waiting c op)
  | relock {sh : StackShared α} {op : StackOp α} {c : Cond} (hawake : t ∉ sh.waiters c)
      (hfree : sh.mutex = none) :
      StackStep t sh (.waiting c op) { sh with mutex := some t } (.unlock op .fail none)
  | unlock {sh : StackShared α} {op : StackOp α} {status : Status} {out : Option α} :
      StackStep t sh (.unlock op status out) { sh with mutex := none }
        (.returned op status out)

/-- The threads and, for each of them, the popped job it still has in hand. -/
structure StackState (α : Type) where
  shared : StackShared α
  pcs : ℕ → StackPc α
  held : ℕ → Option α

inductive StackLabel (α : Type) where
  | start (t : ℕ) (op : StackOp α)
  | advance (t : ℕ)
  | drop (t : ℕ)

/-- A pop puts the job into the caller's hand, a push-back takes it out again. -/
def handAfter (hand : Option α) : StackPc α → StackPc α → Option α
  | .body .pop, .unlock _ .success out => out
  | .body (.pushBack _), .unlock _ .success _ => none
  | _, _ => hand

inductive StackRunStep : StackState α → StackLabel α → StackState α → Prop
  | start {s : StackState α} {t : ℕ} (op : StackOp α) (hout : (s.pcs t).Outside) :
      StackRunStep s (.start t op) { s with pcs := Function.update s.pcs t op.enter }
  | drop {s : StackState α} {t : ℕ} (hout : (s.pcs t).Outside) :
      StackRunStep s (.drop t) { s with held := Function.update s.held t none }
  | advance {s : StackState α} {t : ℕ} {sh' : StackShared α} {pc' : StackPc α}
      (h : StackStep t s.shared (s.pcs t) sh' pc') :
      StackRunStep s (.advance t)
        ⟨sh', Function.update s.pcs t pc',
          Function.update s.held t (handAfter (s.held t) (s.pcs t) pc')⟩

theorem StackRunStep.of_pc {s : StackState α} {t : ℕ} (pc : StackPc α) {pc' : StackPc α}
    {sh' : StackShared α} (hpc : s.pcs t = pc) (h : StackStep t s.shared pc sh' pc') :
    StackRunStep s (.advance t)
      ⟨sh', Function.update s.pcs t pc',
        Function.update s.held t (handAfter (s.held t) pc pc')⟩ := by
  subst hpc
  exact .advance h

def stackInit (maxJobs reserveSlots : ℤ) : StackState α where
  shared := ⟨jobStackConstruct maxJobs reserveSlots, none, fun _ ↦ ∅⟩
  pcs := fun _ ↦ .idle
  held := fun _ ↦ none

def jobStackSystem (α : Type) (maxJobs reserveSlots : ℤ) :
    System (StackState α) (StackLabel α) where
  Init s := s = stackInit maxJobs reserveSlots
  Step := StackRunStep

end HttpProxy
