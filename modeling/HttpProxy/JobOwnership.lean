import HttpProxy.Lib.Ownership
import HttpProxy.WorkerPool

/-!
# Who owns a job

A job is in one slot of one stack or in the hands of one thread.  The stack operations
hand it over; `job_stack_push_back` also moves everything on its stack up by one slot.
-/

namespace HttpProxy

open Transition Ownership

/-! ## The slots of a stack -/

section Slots

variable {α : Type}

/-- The job in a slot below `top`. -/
def JobStack.slot (stack : JobStack α) (index : ℤ) : Option α :=
  if 0 ≤ index ∧ index < stack.top then stack.contentBase index else none

/-- Every slot below `top` has a job. -/
structure JobStack.Filled (stack : JobStack α) : Prop where
  nonneg : 0 ≤ stack.top
  filled : ∀ index, 0 ≤ index → index < stack.top → (stack.contentBase index).isSome

/-- All that a step inside an operation can do to the slots of its stack. -/
inductive SlotChange (stack stack' : JobStack α) (pc pc' : StackPc α) : Prop
  | same (hslot : stack'.slot = stack.slot)
      (hpc : ∀ op op' status out, pc = .body op → pc' = .unlock op' status out →
        status ≠ .success ∨ op = .signalFinish)
  | pushed (job : α) (hpc : pc = .body (.push job)) (hpc' : pc' = .unlock (.push job) .success none)
      (hempty : stack.slot stack.top = none)
      (hslot : stack'.slot = Function.update stack.slot stack.top (some job))
  | pushedBack (job : α) (hpc : pc = .body (.pushBack job))
      (hpc' : pc' = .unlock (.pushBack job) .success none) (hempty : stack.slot (-1) = none)
      (hslot : stack'.slot = Function.update (fun k ↦ stack.slot (k - 1)) 0 (some job))
  | popped (job : α) (hpc : pc = .body .pop) (hpc' : pc' = .unlock .pop .success (some job))
      (hjob : stack.slot (stack.top - 1) = some job)
      (hslot : stack'.slot = Function.update stack.slot (stack.top - 1) none)

theorem slot_pushed {stack : JobStack α} (h : 0 ≤ stack.top) (job : α) :
    ({ jobStackSetItem stack stack.top (some job) with top := stack.top + 1 } :
      JobStack α).slot = Function.update stack.slot stack.top (some job) := by
  funext k
  simp only [JobStack.slot, jobStackSetItem, Function.update_apply]
  by_cases hk : k = stack.top
  · rw [if_pos (by omega), if_pos hk, if_pos hk]
  · by_cases hin : 0 ≤ k ∧ k < stack.top
    · rw [if_pos (by omega), if_neg hk, if_neg hk, if_pos hin]
    · rw [if_neg (by omega), if_neg hk, if_neg hin]

theorem slot_pushedBack {stack : JobStack α} (h : 0 ≤ stack.top) (job : α) :
    (jobStackPushBack stack job).stack.slot =
      Function.update (fun k ↦ stack.slot (k - 1)) 0 (some job) := by
  funext k
  simp only [JobStack.slot, jobStackPushBack, jobStackSetItem, Function.update_apply,
    shiftItems_top, shiftItems_contentBase]
  by_cases hk : k = 0
  · simp only [hk, if_true]
    rw [if_pos (by omega)]
  · by_cases hin : 0 ≤ k - 1 ∧ k - 1 < stack.top
    · rw [if_pos (by omega), if_neg hk, if_neg hk, if_pos hin, if_pos (by omega)]
    · rw [if_neg (by omega), if_neg hk, if_neg hin]

theorem slot_popped (stack : JobStack α) :
    ({ stack with top := stack.top - 1 } : JobStack α).slot =
      Function.update stack.slot (stack.top - 1) none := by
  funext k
  simp only [JobStack.slot, Function.update_apply]
  by_cases hk : k = stack.top - 1
  · rw [if_neg (by omega), if_pos hk]
  · by_cases hin : 0 ≤ k ∧ k < stack.top
    · rw [if_pos (by omega), if_neg hk, if_pos hin]
    · rw [if_neg (by omega), if_neg hk, if_neg hin]

theorem JobStack.Filled.slot_isSome {stack : JobStack α} (h : stack.Filled) {index : ℤ}
    (hlow : 0 ≤ index) (hhigh : index < stack.top) : (stack.slot index).isSome := by
  rw [JobStack.slot, if_pos ⟨hlow, hhigh⟩]
  exact h.filled index hlow hhigh

theorem JobStack.filled_of_slots {stack : JobStack α} (hnonneg : 0 ≤ stack.top)
    (h : ∀ index, 0 ≤ index → index < stack.top → (stack.slot index).isSome) : stack.Filled := by
  refine ⟨hnonneg, fun index hlow hhigh ↦ ?_⟩
  have := h index hlow hhigh
  rwa [JobStack.slot, if_pos ⟨hlow, hhigh⟩] at this

theorem StackStep.slotChange {t : ℕ} {sh sh' : StackShared α} {pc pc' : StackPc α}
    (hfilled : sh.stack.Filled) (h : StackStep t sh pc sh' pc') :
    SlotChange sh.stack sh'.stack pc pc' ∧ sh'.stack.Filled := by
  have hnonneg := hfilled.nonneg
  cases h with
  | @keep op stack status hrun =>
      have hchange := StackOp.run_change sh.stack op
      rw [hrun] at hchange
      cases hchange with
      | refused => exact ⟨.same rfl (by simp), hfilled⟩
  | @wait op stack c hrun =>
      have hchange := StackOp.run_change sh.stack op
      rw [hrun] at hchange
      cases hchange with
      | full => exact ⟨.same rfl (by simp), hfilled⟩
      | empty => exact ⟨.same rfl (by simp), hfilled⟩
  | @leave op stack wake status out waiters hrun hwake =>
      cases op with
      | push job =>
          have hchange := StackOp.run_change sh.stack (.push job)
          rw [hrun] at hchange
          cases hchange with
          | pushed =>
              have hslot := slot_pushed hnonneg job
              refine ⟨.pushed job rfl rfl (if_neg (by omega)) hslot, ?_⟩
              refine JobStack.filled_of_slots (by simp only; omega) fun index hlow hhigh ↦ ?_
              rw [hslot, Function.update_apply]
              split
              · rfl
              next hne => exact hfilled.slot_isSome hlow (by simp only at hhigh; omega)
      | pushBack job =>
          simp only [StackOp.run, jobStackPushBack, Locked.mk.injEq, Exit.unlock.injEq] at hrun
          obtain ⟨rfl, rfl, rfl, rfl⟩ := hrun
          have hslot := slot_pushedBack hnonneg job
          refine ⟨.pushedBack job rfl rfl (if_neg (by omega)) hslot, ?_⟩
          have htop : (jobStackPushBack sh.stack job).stack.top = sh.stack.top + 1 := by
            simp [jobStackPushBack, jobStackSetItem]
          change (jobStackPushBack sh.stack job).stack.Filled
          refine JobStack.filled_of_slots (by omega) fun index hlow hhigh ↦ ?_
          rw [hslot, Function.update_apply]
          split
          · rfl
          next hne => exact hfilled.slot_isSome (by omega) (by omega)
      | pop =>
          have hchange := StackOp.run_change sh.stack .pop
          rw [hrun] at hchange
          cases hchange with
          | drained =>
              refine ⟨.same rfl fun op op' status out _ hpc' ↦ ?_, hfilled⟩
              cases hpc'
              exact .inl (by simp)
          | popped htop =>
              have hslot := slot_popped sh.stack
              obtain ⟨job, hjob⟩ := Option.isSome_iff_exists.mp
                (hfilled.slot_isSome (show 0 ≤ sh.stack.top - 1 by omega) (by omega))
              have hitem : jobStackGetItem sh.stack (sh.stack.top - 1) = some job := by
                rwa [JobStack.slot, if_pos (by omega)] at hjob
              rw [hitem]
              refine ⟨.popped job rfl rfl hjob hslot, ?_⟩
              refine JobStack.filled_of_slots (by simp only; omega) fun index hlow hhigh ↦ ?_
              simp only at hhigh
              rw [hslot, Function.update_of_ne (by omega)]
              exact hfilled.slot_isSome hlow (by omega)
      | signalFinish =>
          have hchange := StackOp.run_change sh.stack .signalFinish
          rw [hrun] at hchange
          cases hchange with
          | signalled =>
              refine ⟨.same rfl fun op op' status out hpc _ ↦ ?_, hfilled.nonneg, hfilled.filled⟩
              cases hpc
              exact .inr rfl
  | _ => exact ⟨.same rfl (by simp), hfilled⟩

end Slots

/-! ## What a thread has in its hands -/

section Threads

variable {ι : Type} {current fresh : Option ℕ} {rest : Option (Status → Processing)}

/-- The hands of a thread that is inside an operation.  A push is called with the job that
was just constructed, from the middle of `process_job` by whoever has a job. -/
def OpFits (current fresh : Option ℕ) (rest : Option (Status → Processing)) :
    StackOp ℕ → Prop
  | .push job => fresh = some job ∧ rest.isSome = current.isSome
  | .pushBack job => current = some job ∧ fresh = none ∧ rest = none
  | .pop => current = none ∧ fresh = none ∧ rest = none
  | .signalFinish => current = none ∧ fresh = none ∧ rest = none

/-- The hands of a thread whose operation has come to its result. -/
def ResultFits (current fresh : Option ℕ) (rest : Option (Status → Processing)) :
    StackOp ℕ → Status → Option ℕ → Prop
  | .push job, status, _ =>
      fresh = (if status = .success then none else some job) ∧ rest.isSome = current.isSome
  | .pushBack job, status, _ =>
      current = (if status = .success then none else some job) ∧ fresh = none ∧ rest = none
  | .pop, .success, out => out.isSome ∧ current = out ∧ fresh = none ∧ rest = none
  | .pop, _, _ => current = none ∧ fresh = none ∧ rest = none
  | .signalFinish, _, _ => current = none ∧ fresh = none ∧ rest = none

def InsideFits (current fresh : Option ℕ) (rest : Option (Status → Processing)) :
    StackPc ℕ → Prop
  | .idle => False
  | .testFinished job => OpFits current fresh rest (.pushBack job)
  | .lock op => OpFits current fresh rest op
  | .body op => OpFits current fresh rest op
  | .waiting _ op => OpFits current fresh rest op
  | .unlock op status out => ResultFits current fresh rest op status out
  | .returned op status out => ResultFits current fresh rest op status out

def PoolThread.Fits (thread : PoolThread ι) : Prop :=
  match thread.pc with
  | .idle => thread.current = none ∧ thread.fresh = none
  | .stopped => thread.current = none ∧ thread.fresh = none
  | .working _ => thread.current.isSome ∧ thread.fresh = none
  | .inside _ pc rest => InsideFits thread.current thread.fresh rest pc

/-- An operation that has not succeeded leaves the hands as they were. -/
theorem OpFits.result {op : StackOp ℕ} (h : OpFits current fresh rest op) {status : Status}
    (hstatus : status ≠ .success ∨ op = .signalFinish) (out : Option ℕ) :
    ResultFits current fresh rest op status out := by
  cases op with
  | push job =>
      have hfail := hstatus.resolve_right (by simp)
      exact ⟨by rw [if_neg hfail]; exact h.1, h.2⟩
  | pushBack job =>
      have hfail := hstatus.resolve_right (by simp)
      exact ⟨by rw [if_neg hfail]; exact h.1, h.2⟩
  | pop =>
      have hfail := hstatus.resolve_right (by simp)
      cases status with
      | success => exact absurd rfl hfail
      | fail => exact h
      | finished => exact h
  | signalFinish => exact h

/-- A step that moves no job between the stack and the hands. -/
theorem hands_kept (current fresh : Option ℕ) {pc pc' : StackPc ℕ}
    (h : ∀ op op' status out, pc = .body op → pc' = .unlock op' status out →
      status ≠ .success ∨ op = .signalFinish) :
    handAfter current pc pc' = current ∧ freshAfter fresh pc pc' = fresh ∧
      stackEvents pc pc' = [] := by
  refine ⟨?_, ?_, ?_⟩
  · unfold handAfter
    split
    · exact absurd (h _ _ _ _ rfl rfl) (by simp)
    · exact absurd (h _ _ _ _ rfl rfl) (by simp)
    · rfl
  · unfold freshAfter
    split
    · exact absurd (h _ _ _ _ rfl rfl) (by simp)
    · rfl
  · unfold stackEvents
    split
    · exact absurd (h _ _ _ _ rfl rfl) (by simp)
    · exact absurd (h _ _ _ _ rfl rfl) (by simp)
    · exact absurd (h _ _ _ _ rfl rfl) (by simp)
    · rfl

/-- What a step does between two lines of an operation that keeps the hands. -/
theorem StackStep.fits_kept {t : ℕ} {sh sh' : StackShared ℕ} {pc pc' : StackPc ℕ}
    (h : StackStep t sh pc sh' pc')
    (hpc : ∀ op op' status out, pc = .body op → pc' = .unlock op' status out →
      status ≠ .success ∨ op = .signalFinish)
    (hfits : InsideFits current fresh rest pc) : InsideFits current fresh rest pc' := by
  cases h with
  | @testFail job =>
      have hop : OpFits current fresh rest (.pushBack job) := hfits
      exact hop.result (.inl (by simp)) none
  | testPass => exact hfits
  | lock => exact hfits
  | @keep op stack status hrun =>
      have hop : OpFits current fresh rest op := hfits
      have hchange := StackOp.run_change sh.stack op
      rw [hrun] at hchange
      cases hchange with
      | refused => exact hop.result (.inl (by simp)) none
  | wait => exact hfits
  | @leave op stack wake status out =>
      have hop : OpFits current fresh rest op := hfits
      exact hop.result (hpc op op status out rfl rfl) out
  | spurious => exact hfits
  | @relock op =>
      have hop : OpFits current fresh rest op := hfits
      exact hop.result (.inl (by simp)) none
  | unlock => exact hfits

theorem StackStep.insideFits {t : ℕ} {sh sh' : StackShared ℕ} {pc pc' : StackPc ℕ}
    (h : StackStep t sh pc sh' pc') (hchange : SlotChange sh.stack sh'.stack pc pc')
    (hfits : InsideFits current fresh rest pc) :
    InsideFits (handAfter current pc pc') (freshAfter fresh pc pc') rest pc' := by
  cases hchange with
  | same _ hpc =>
      obtain ⟨hhand, hfresh, -⟩ := hands_kept current fresh hpc
      rw [hhand, hfresh]
      exact h.fits_kept hpc hfits
  | pushed job hpc hpc' =>
      subst hpc hpc'
      exact ⟨rfl, hfits.2⟩
  | pushedBack job hpc hpc' =>
      subst hpc hpc'
      exact ⟨rfl, hfits.2⟩
  | popped job hpc hpc' =>
      subst hpc hpc'
      exact ⟨rfl, rfl, hfits.2⟩

end Threads

/-! ## Places -/

/-- Where a job can be: in a slot of a stack, popped by a thread, or constructed by it. -/
inductive Place (ι : Type) where
  | slot (stack : ι) (index : ℤ)
  | current (t : ℕ)
  | fresh (t : ℕ)
  deriving DecidableEq

variable {ι : Type}

def PoolState.holds (s : PoolState ι) : Place ι → Option ℕ
  | .slot i index => (s.jobStacks i).stack.slot index
  | .current t => (s.threads t).current
  | .fresh t => (s.threads t).fresh

/-- Every slot of stack `i` is filled from the one below it. -/
def Place.below [DecidableEq ι] (i : ι) : Place ι → Place ι
  | .slot i' index => if i' = i then .slot i' (index - 1) else .slot i' index
  | p => p

theorem Place.below_injective [DecidableEq ι] (i : ι) : Function.Injective (Place.below i) := by
  intro p q h
  cases p <;> cases q <;> simp only [Place.below] at h <;> (try split_ifs at h) <;> simp_all

def JobEvent.job : JobEvent → ℕ
  | .accepted job => job
  | .dispatched job => job
  | .pushed job => job
  | .pushedBack job => job
  | .popped job => job
  | .processed job => job
  | .destructed job => job

variable [DecidableEq ι] {cfg : PoolConfig ι} {s s' : PoolState ι} {t : ℕ}

/-- All that a step of thread `t` can do to the jobs. -/
inductive PoolChange (t : ℕ) (s s' : PoolState ι) : Prop
  | keep (hholds : s'.holds = s.holds) (hnext : s'.next = s.next) (hlog : s'.log = s.log)
  | construct (event : JobEvent)
      (hevent : event = .accepted s.next ∨ event = .dispatched s.next)
      (hempty : s.holds (.fresh t) = none)
      (hholds : s'.holds = Function.update s.holds (.fresh t) (some s.next))
      (hnext : s'.next = s.next + 1) (hlog : s'.log = s.log ++ [event])
  | forget (i : ι) (job : ℕ) (status : Status) (out : Option ℕ)
      (rest : Option (Status → Processing))
      (hpc : (s.threads t).pc = .inside i (.returned (.push job) status out) rest)
      (hholds : s'.holds = Function.update s.holds (.fresh t) none)
      (hnext : s'.next = s.next) (hlog : s'.log = s.log)
  | push (i : ι) (index : ℤ) (job : ℕ) (hfrom : s.holds (.fresh t) = some job)
      (hempty : s.holds (.slot i index) = none)
      (hholds : s'.holds = Function.update (Function.update s.holds (.fresh t) none)
        (.slot i index) (some job))
      (hnext : s'.next = s.next) (hlog : s'.log = s.log ++ [.pushed job])
      (hpc : ∃ rest, (s.threads t).pc = .inside i (.body (.push job)) rest)
  | pushBack (i : ι) (job : ℕ) (hfrom : s.holds (.current t) = some job)
      (hempty : s.holds (.slot i (-1)) = none)
      (hholds : s'.holds = Function.update
        (Function.update (s.holds ∘ Place.below i) (.current t) none) (.slot i 0) (some job))
      (hnext : s'.next = s.next) (hlog : s'.log = s.log ++ [.pushedBack job])
      (hpc : ∃ rest, (s.threads t).pc = .inside i (.body (.pushBack job)) rest)
  | pop (i : ι) (index : ℤ) (job : ℕ) (hfrom : s.holds (.slot i index) = some job)
      (hempty : s.holds (.current t) = none)
      (hholds : s'.holds = Function.update (Function.update s.holds (.slot i index) none)
        (.current t) (some job))
      (hnext : s'.next = s.next) (hlog : s'.log = s.log ++ [.popped job])
      (hpc : ∃ rest, (s.threads t).pc = .inside i (.body .pop) rest)
  | process (job : ℕ) (hcurrent : s.holds (.current t) = some job)
      (hholds : s'.holds = s.holds) (hnext : s'.next = s.next)
      (hlog : s'.log = s.log ++ [.processed job])
  | destruct (job : ℕ) (hcurrent : s.holds (.current t) = some job)
      (hholds : s'.holds = Function.update s.holds (.current t) none)
      (hnext : s'.next = s.next) (hlog : s'.log = s.log ++ [.destructed job])

section Hands

variable {pc : PoolPc ι} {current fresh : Option ℕ}

theorem holds_of_thread (hstacks : s'.jobStacks = s.jobStacks)
    (hthreads : s'.threads = Function.update s.threads t ⟨pc, current, fresh⟩) :
    s'.holds = Function.update (Function.update s.holds (.current t) current) (.fresh t) fresh := by
  funext p
  cases p with
  | slot i index => simp [PoolState.holds, hstacks]
  | current u =>
      by_cases hu : u = t
      · subst hu
        simp [PoolState.holds, hthreads]
      · simp [PoolState.holds, hthreads, hu]
  | fresh u =>
      by_cases hu : u = t
      · subst hu
        simp [PoolState.holds, hthreads]
      · simp [PoolState.holds, hthreads, hu]

theorem holds_of_current (hstacks : s'.jobStacks = s.jobStacks)
    (hthreads : s'.threads = Function.update s.threads t ⟨pc, current, fresh⟩)
    (hfresh : fresh = (s.threads t).fresh) :
    s'.holds = Function.update s.holds (.current t) current := by
  rw [holds_of_thread hstacks hthreads, Function.update_eq_self_iff]
  simpa [PoolState.holds] using hfresh

theorem holds_of_fresh (hstacks : s'.jobStacks = s.jobStacks)
    (hthreads : s'.threads = Function.update s.threads t ⟨pc, current, fresh⟩)
    (hcurrent : current = (s.threads t).current) :
    s'.holds = Function.update s.holds (.fresh t) fresh := by
  have hsame : (s.threads t).current = s.holds (.current t) := rfl
  rw [holds_of_thread hstacks hthreads, hcurrent, hsame, Function.update_eq_self]

theorem holds_setPc (s : PoolState ι) (t : ℕ) (pc : PoolPc ι) : (s.setPc t pc).holds = s.holds := by
  have h : (s.setPc t pc).holds = Function.update s.holds (.fresh t) (s.holds (.fresh t)) :=
    holds_of_fresh rfl rfl rfl
  rwa [Function.update_eq_self] at h

end Hands

section Stacks

variable {i : ι} {shared : StackShared ℕ}

def PoolState.setStack (s : PoolState ι) (i : ι) (shared : StackShared ℕ) : PoolState ι :=
  { s with jobStacks := Function.update s.jobStacks i shared }

theorem holds_stack_same (h : shared.stack.slot = (s.jobStacks i).stack.slot) :
    (s.setStack i shared).holds = s.holds := by
  funext p
  cases p with
  | slot i' index =>
      by_cases hi : i' = i
      · subst hi
        simp [PoolState.holds, PoolState.setStack, h]
      · simp [PoolState.holds, PoolState.setStack, hi]
  | current u => rfl
  | fresh u => rfl

theorem holds_stack_update {index : ℤ} {job : Option ℕ}
    (h : shared.stack.slot = Function.update (s.jobStacks i).stack.slot index job) :
    (s.setStack i shared).holds =
      Function.update s.holds (.slot i index) job := by
  funext p
  cases p with
  | slot i' index' =>
      by_cases hi : i' = i
      · subst hi
        simp [PoolState.holds, PoolState.setStack, h, Function.update_apply]
      · simp [PoolState.holds, PoolState.setStack, hi]
  | current u => simp [PoolState.holds, PoolState.setStack]
  | fresh u => simp [PoolState.holds, PoolState.setStack]

theorem holds_stack_shift {job : ℕ}
    (h : shared.stack.slot =
      Function.update (fun k ↦ (s.jobStacks i).stack.slot (k - 1)) 0 (some job)) :
    (s.setStack i shared).holds =
      Function.update (s.holds ∘ Place.below i) (.slot i 0) (some job) := by
  funext p
  cases p with
  | slot i' index' =>
      by_cases hi : i' = i
      · subst hi
        simp [PoolState.holds, PoolState.setStack, h, Function.update_apply, Place.below]
      · simp [PoolState.holds, PoolState.setStack, hi, Place.below]
  | current u => simp [PoolState.holds, PoolState.setStack, Place.below]
  | fresh u => simp [PoolState.holds, PoolState.setStack, Place.below]

/-- A step inside an operation, by what it does to the slots of the stack. -/
theorem PoolChange.of_move {rest : Option (Status → Processing)} {pc pc' : StackPc ℕ}
    (hat : (s.threads t).pc = .inside i pc rest)
    (hfits : InsideFits (s.threads t).current (s.threads t).fresh rest pc)
    (h : SlotChange (s.jobStacks i).stack shared.stack pc pc') :
    PoolChange t s (s.move t i rest pc pc' shared) := by
  cases h with
  | same hsame hpc =>
      obtain ⟨hhand, hkept, hevents⟩ :=
        hands_kept (s.threads t).current (s.threads t).fresh hpc
      refine .keep ?_ rfl (by simp [PoolState.move, hevents])
      refine Eq.trans (b := Function.update (s.setStack i shared).holds (.fresh t) _)
        (holds_of_fresh rfl rfl hhand) ?_
      rw [holds_stack_same hsame]
      exact Function.update_eq_self_iff.mpr hkept
  | pushed job hpc hpc' hempty hpushed =>
      subst hpc hpc'
      refine .push i (s.jobStacks i).stack.top job hfits.1 hempty ?_ rfl rfl ⟨_, hat⟩
      refine Eq.trans (b := Function.update (s.setStack i shared).holds (.fresh t) none)
        (holds_of_fresh rfl rfl rfl) ?_
      rw [holds_stack_update hpushed]
      exact Function.update_comm (by simp) _ _ _
  | pushedBack job hpc hpc' hempty hpushed =>
      subst hpc hpc'
      refine .pushBack i job hfits.1 hempty ?_ rfl rfl ⟨_, hat⟩
      refine Eq.trans (b := Function.update (s.setStack i shared).holds (.current t) none)
        (holds_of_current rfl rfl rfl) ?_
      rw [holds_stack_shift hpushed]
      exact Function.update_comm (by simp) _ _ _
  | popped job hpc hpc' hjob hpopped =>
      subst hpc hpc'
      refine .pop i ((s.jobStacks i).stack.top - 1) job hjob hfits.1 ?_ rfl rfl ⟨_, hat⟩
      refine Eq.trans (b := Function.update (s.setStack i shared).holds (.current t) (some job))
        (holds_of_current rfl rfl rfl) ?_
      rw [holds_stack_update hpopped]

end Stacks

/-- The stacks are filled and the hands of every thread fit where it is. -/
structure PoolFits (s : PoolState ι) : Prop where
  filled : ∀ i, (s.jobStacks i).stack.Filled
  threads : ∀ t, (s.threads t).Fits

omit [DecidableEq ι] in
theorem PoolFits.at (hs : PoolFits s) {pc : PoolPc ι} (hpc : (s.threads t).pc = pc) :
    PoolThread.Fits ⟨pc, (s.threads t).current, (s.threads t).fresh⟩ :=
  hpc ▸ hs.threads t

theorem PoolStep.change (hs : PoolFits s) (h : PoolStep cfg t s s') : PoolChange t s s' := by
  cases h with
  | accept fd hrole hpc =>
      exact .construct _ (.inl rfl) (hs.at hpc).2 (holds_of_fresh rfl rfl rfl) rfl rfl
  | dispatch hpc =>
      exact .construct _ (.inr rfl) (hs.at hpc).2 (holds_of_fresh rfl rfl rfl) rfl rfl
  | accepted hpc => exact .forget _ _ _ _ _ hpc (holds_of_fresh rfl rfl rfl) rfl rfl
  | dispatched hpc => exact .forget _ _ _ _ _ hpc (holds_of_fresh rfl rfl rfl) rfl rfl
  | process hpc =>
      exact .process _ (hs.at hpc).2.1 (holds_setPc s t _) rfl rfl
  | terminate hpc hjob => exact .destruct _ hjob (holds_of_current rfl rfl rfl) rfl rfl
  | pushBackFailed hpc hstatus =>
      have hcurrent := (hs.at hpc).1
      rw [if_neg hstatus] at hcurrent
      exact .destruct _ hcurrent (holds_of_current rfl rfl rfl) rfl rfl
  | enqueue => exact .keep (holds_setPc s t _) rfl rfl
  | inside hpc h =>
      exact .of_move hpc (hs.at hpc) (h.slotChange (hs.filled _)).1
  | _ => exact .keep (holds_setPc s t _) rfl rfl

omit [DecidableEq ι] in
theorem PoolFits.of_thread {thread : PoolThread ι} (hs : PoolFits s)
    (hfilled : ∀ i, (s'.jobStacks i).stack.Filled)
    (hthreads : s'.threads = Function.update s.threads t thread) (hfits : thread.Fits) :
    PoolFits s' := by
  refine ⟨hfilled, fun u ↦ ?_⟩
  rw [hthreads]
  by_cases hu : u = t
  · subst hu
    simpa using hfits
  · simpa [hu] using hs.threads u

theorem PoolFits.step (hs : PoolFits s) (h : PoolStep cfg t s s') : PoolFits s' := by
  cases h with
  | accept fd hrole hpc =>
      obtain ⟨hcurrent, -⟩ := hs.at hpc
      exact hs.of_thread hs.filled rfl ⟨rfl, by rw [hcurrent]; rfl⟩
  | retry hpc =>
      obtain ⟨hfresh, hrest⟩ := hs.at hpc
      exact hs.of_thread hs.filled rfl ⟨hfresh, hrest⟩
  | accepted hpc =>
      obtain ⟨-, hrest⟩ := hs.at hpc
      exact hs.of_thread hs.filled rfl ⟨by simpa using hrest.symm, rfl⟩
  | signal i hrole hpc =>
      obtain ⟨hcurrent, hfresh⟩ := hs.at hpc
      exact hs.of_thread hs.filled rfl ⟨hcurrent, hfresh, rfl⟩
  | signalled hpc =>
      obtain ⟨hcurrent, hfresh, -⟩ := hs.at hpc
      exact hs.of_thread hs.filled rfl ⟨hcurrent, hfresh⟩
  | poll hrole hpc =>
      obtain ⟨hcurrent, hfresh⟩ := hs.at hpc
      exact hs.of_thread hs.filled rfl ⟨hcurrent, hfresh, rfl⟩
  | finished hpc =>
      obtain ⟨hcurrent, hfresh, -⟩ := hs.at hpc
      exact hs.of_thread hs.filled rfl ⟨hcurrent, hfresh⟩
  | again hpc =>
      obtain ⟨hcurrent, hfresh, -⟩ := hs.at hpc
      exact hs.of_thread hs.filled rfl ⟨hcurrent, hfresh⟩
  | process hpc =>
      obtain ⟨-, hcurrent, hfresh, -⟩ := hs.at hpc
      exact hs.of_thread hs.filled rfl ⟨by rw [hcurrent]; rfl, hfresh⟩
  | terminate hpc => exact hs.of_thread hs.filled rfl ⟨rfl, (hs.at hpc).2⟩
  | enqueue hpc hjob => exact hs.of_thread hs.filled rfl ⟨hjob, (hs.at hpc).2, rfl⟩
  | pushedBack hpc =>
      obtain ⟨hcurrent, hfresh, -⟩ := hs.at hpc
      exact hs.of_thread hs.filled rfl ⟨hcurrent, hfresh⟩
  | pushBackFailed hpc =>
      obtain ⟨-, hfresh, -⟩ := hs.at hpc
      exact hs.of_thread hs.filled rfl ⟨rfl, hfresh⟩
  | call hpc =>
      obtain ⟨hcurrent, hfresh⟩ := hs.at hpc
      exact hs.of_thread hs.filled rfl ⟨hcurrent, hfresh⟩
  | dispatch hpc => exact hs.of_thread hs.filled rfl ⟨rfl, (hs.at hpc).1.symm⟩
  | dispatched hpc => exact hs.of_thread hs.filled rfl ⟨(hs.at hpc).2.symm, rfl⟩
  | @inside i rest pc pc' shared hpc h =>
      obtain ⟨hchange, hfilled⟩ := h.slotChange (hs.filled i)
      refine hs.of_thread (fun i' ↦ ?_) rfl (h.insideFits hchange (hs.at hpc))
      by_cases hi : i' = i
      · subst hi
        simpa [PoolState.move] using hfilled
      · simpa [PoolState.move, hi] using hs.filled i'

omit [DecidableEq ι] in
theorem poolFits_init (maxJobs reserveSlots : ι → ℤ) :
    PoolFits (poolInit maxJobs reserveSlots) := by
  refine ⟨fun i ↦ ⟨le_refl 0, fun index hlow hhigh ↦ ?_⟩, fun t ↦ ⟨rfl, rfl⟩⟩
  simp only [poolInit, jobStackConstruct] at hhigh
  omega

/-! ## Nobody shares a job -/

/-- A job is at one place at most, was constructed before, and has not been destructed. -/
structure JobsOwned (s : PoolState ι) : Prop where
  fits : PoolFits s
  exclusive : Exclusive s.holds
  logged : ∀ event ∈ s.log, event.job < s.next
  alive : ∀ p job, s.holds p = some job → job < s.next ∧ .destructed job ∉ s.log

theorem held_of_update {holds : Place ι → Option ℕ} {p q : Place ι} {held : Option ℕ} {job : ℕ}
    (h : Function.update holds q held p = some job) :
    (∃ r, holds r = some job) ∨ held = some job := by
  by_cases hpq : p = q
  · subst hpq
    exact .inr (by simpa using h)
  · exact .inl ⟨p, by simpa [hpq] using h⟩

/-- A job that is somewhere was somewhere before, or has just been constructed. -/
theorem PoolChange.held_before (h : PoolChange t s s') {p : Place ι} {job : ℕ}
    (hp : s'.holds p = some job) :
    (∃ q, s.holds q = some job) ∨ job = s.next ∧ s'.next = s.next + 1 := by
  cases h with
  | keep hholds => exact .inl ⟨p, hholds ▸ hp⟩
  | construct event hevent hempty hholds hnext =>
      rw [hholds] at hp
      refine (held_of_update hp).imp_right fun hnew ↦ ⟨?_, hnext⟩
      exact (Option.some.inj hnew).symm
  | forget i job₀ status out rest hpc hholds =>
      rw [hholds] at hp
      exact .inl ((held_of_update hp).resolve_right (by simp))
  | push i index job' hfrom hempty hholds =>
      rw [hholds] at hp
      rcases held_of_update hp with ⟨q, hq⟩ | hmoved
      · exact .inl ((held_of_update hq).resolve_right (by simp))
      · exact .inl ⟨_, hfrom.trans hmoved⟩
  | pushBack i job' hfrom hempty hholds =>
      rw [hholds] at hp
      rcases held_of_update hp with ⟨q, hq⟩ | hmoved
      · obtain ⟨r, hr⟩ := (held_of_update hq).resolve_right (by simp)
        exact .inl ⟨_, hr⟩
      · exact .inl ⟨_, hfrom.trans hmoved⟩
  | pop i index job' hfrom hempty hholds =>
      rw [hholds] at hp
      rcases held_of_update hp with ⟨q, hq⟩ | hmoved
      · exact .inl ((held_of_update hq).resolve_right (by simp))
      · exact .inl ⟨_, hfrom.trans hmoved⟩
  | process job' hcurrent hholds => exact .inl ⟨p, hholds ▸ hp⟩
  | destruct job' hcurrent hholds =>
      rw [hholds] at hp
      exact .inl ((held_of_update hp).resolve_right (by simp))

theorem PoolChange.exclusive (h : PoolChange t s s') (hexclusive : Exclusive s.holds)
    (hbound : ∀ p job, s.holds p = some job → job < s.next) : Exclusive s'.holds := by
  cases h with
  | keep hholds => exact hholds ▸ hexclusive
  | construct event hevent hempty hholds =>
      rw [hholds]
      exact hexclusive.create (fun q hq ↦ Nat.lt_irrefl _ (hbound q _ hq)) _
  | forget i job₀ status out rest hpc hholds =>
      rw [hholds]
      exact hexclusive.discard _
  | push i index job hfrom hempty hholds =>
      rw [hholds]
      exact hexclusive.handOver hfrom
  | pushBack i job hfrom hempty hholds =>
      rw [hholds]
      exact (hexclusive.comp (Place.below_injective i)).handOver hfrom
  | pop i index job hfrom hempty hholds =>
      rw [hholds]
      exact hexclusive.handOver hfrom
  | process job hcurrent hholds => exact hholds ▸ hexclusive
  | destruct job hcurrent hholds =>
      rw [hholds]
      exact hexclusive.discard _

/-- A step logs jobs that have been constructed, and destructs one only out of the hands of
its thread. -/
theorem PoolChange.events (h : PoolChange t s s')
    (hbound : ∀ p job, s.holds p = some job → job < s.next) :
    ∃ events, s'.log = s.log ++ events ∧ s.next ≤ s'.next ∧
      (∀ event ∈ events, event.job < s'.next) ∧
        ∀ job, .destructed job ∈ events → s.holds (.current t) = some job ∧
          s'.holds = Function.update s.holds (.current t) none := by
  cases h with
  | keep hholds hnext hlog => exact ⟨[], by simpa using hlog, hnext.ge, by simp, by simp⟩
  | construct event hevent hempty hholds hnext hlog =>
      refine ⟨[event], hlog, by omega, ?_, ?_⟩
      · rcases hevent with rfl | rfl <;> simp [JobEvent.job, hnext]
      · rcases hevent with rfl | rfl <;> simp
  | forget i job status out rest hpc hholds hnext hlog =>
      exact ⟨[], by simpa using hlog, hnext.ge, by simp, by simp⟩
  | push i index job hfrom hempty hholds hnext hlog =>
      exact ⟨_, hlog, hnext.ge, by simpa [JobEvent.job, hnext] using hbound _ _ hfrom, by simp⟩
  | pushBack i job hfrom hempty hholds hnext hlog =>
      exact ⟨_, hlog, hnext.ge, by simpa [JobEvent.job, hnext] using hbound _ _ hfrom, by simp⟩
  | pop i index job hfrom hempty hholds hnext hlog =>
      exact ⟨_, hlog, hnext.ge, by simpa [JobEvent.job, hnext] using hbound _ _ hfrom, by simp⟩
  | process job hcurrent hholds hnext hlog =>
      exact ⟨_, hlog, hnext.ge, by simpa [JobEvent.job, hnext] using hbound _ _ hcurrent, by simp⟩
  | destruct job hcurrent hholds hnext hlog =>
      refine ⟨_, hlog, hnext.ge, by simpa [JobEvent.job, hnext] using hbound _ _ hcurrent, ?_⟩
      intro job' hjob'
      obtain rfl : job' = job := by simpa using hjob'
      exact ⟨hcurrent, hholds⟩

/-- What is newly dispatched is the next job, in the hands of its thread. -/
theorem PoolChange.dispatched {job : ℕ} (h : PoolChange t s s') (hmem : .dispatched job ∈ s'.log) :
    .dispatched job ∈ s.log ∨ s'.holds (.fresh t) = some job ∧ job = s.next := by
  cases h with
  | construct event hevent hempty hholds hnext hlog =>
      rw [hlog, List.mem_append] at hmem
      refine hmem.imp_right fun hnew ↦ ?_
      rcases hevent with rfl | rfl
      · simp at hnew
      · obtain rfl : job = s.next := by simpa using hnew
        simp [hholds]
  | keep hholds hnext hlog => exact .inl (hlog ▸ hmem)
  | forget i job₀ status out rest hpc hholds hnext hlog => exact .inl (hlog ▸ hmem)
  | push i index job₀ hfrom hempty hholds hnext hlog => exact .inl (by simpa [hlog] using hmem)
  | pushBack i job₀ hfrom hempty hholds hnext hlog => exact .inl (by simpa [hlog] using hmem)
  | pop i index job₀ hfrom hempty hholds hnext hlog => exact .inl (by simpa [hlog] using hmem)
  | process job₀ hcurrent hholds hnext hlog => exact .inl (by simpa [hlog] using hmem)
  | destruct job₀ hcurrent hholds hnext hlog => exact .inl (by simpa [hlog] using hmem)

theorem JobsOwned.step (hs : JobsOwned s) (h : PoolStep cfg t s s') : JobsOwned s' := by
  have hchange := h.change hs.fits
  have hbound : ∀ p job, s.holds p = some job → job < s.next := fun p job hp ↦
    (hs.alive p job hp).1
  obtain ⟨events, hlog, hnext, hjobs, hdestruct⟩ := hchange.events hbound
  refine ⟨hs.fits.step h, hchange.exclusive hs.exclusive hbound, ?_, ?_⟩
  · intro event hevent
    rw [hlog] at hevent
    rcases List.mem_append.mp hevent with hold | hnew
    · exact (hs.logged event hold).trans_le hnext
    · exact hjobs event hnew
  · intro p job hp
    have hfresh : .destructed job ∉ events := by
      intro hmem
      obtain ⟨hcurrent, hholds⟩ := hdestruct job hmem
      rw [hholds] at hp
      by_cases hpt : p = .current t
      · simp [hpt] at hp
      · rw [Function.update_of_ne hpt] at hp
        exact hpt (hs.exclusive hp hcurrent)
    rcases hchange.held_before hp with ⟨q, hq⟩ | ⟨rfl, hsucc⟩
    · obtain ⟨hlt, halive⟩ := hs.alive q job hq
      exact ⟨hlt.trans_le hnext, by simp [hlog, halive, hfresh]⟩
    · refine ⟨by omega, fun hmem ↦ ?_⟩
      rw [hlog] at hmem
      rcases List.mem_append.mp hmem with hold | hnew
      · exact Nat.lt_irrefl _ (hs.logged _ hold)
      · exact hfresh hnew

theorem jobsOwned_reachable {maxJobs reserveSlots : ι → ℤ}
    (hs : (workerPool cfg maxJobs reserveSlots).Reachable s) : JobsOwned s := by
  refine System.reachable_induction (I := JobsOwned) ?_ ?_ hs
  · rintro s rfl
    have hnone : (poolInit maxJobs reserveSlots).holds = fun _ ↦ none := by
      funext p
      cases p with
      | slot i index => exact if_neg (by simp only [poolInit, jobStackConstruct]; omega)
      | current u => rfl
      | fresh u => rfl
    refine ⟨poolFits_init maxJobs reserveSlots, ?_, by simp [poolInit], by simp [hnone]⟩
    rw [hnone]
    exact exclusive_empty
  · intro s t s' ih h
    exact ih.step h

end HttpProxy
