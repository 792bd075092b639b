import HttpProxy.JobStackRuns

/-!
# The job stack is a double-ended sequence

The cells below `top`, read bottom first, are the items of a sequence that can be closed.
Every call of the stack acts on that sequence once, between its call and its return, and
returns what the sequence answers; all else that the threads do leaves the sequence alone.
-/

namespace HttpProxy

open Transition

variable {α : Type}

/-! ## The sequence -/

/-- A sequence with two ends, the bottom first, that can be closed. -/
structure Deque (α : Type) where
  items : List α
  closed : Bool

def Deque.empty : Deque α := ⟨[], false⟩

/-- What a call makes of the sequence when it returns the status and the job.  `limit` is
the length from which on nothing more is added at the top. -/
inductive DequeCall (limit : ℤ) (d : Deque α) :
    StackOp α → Status → Option α → Deque α → Prop
  | pushed (job : α) (hopen : d.closed = false) (hroom : (d.items.length : ℤ) < limit) :
      DequeCall limit d (.push job) .success none { d with items := d.items ++ [job] }
  | pushedBack (job : α) :
      DequeCall limit d (.pushBack job) .success none { d with items := job :: d.items }
  | popped (rest : List α) (job : α) (hitems : d.items = rest ++ [job]) :
      DequeCall limit d .pop .success (some job) { d with items := rest }
  | signalled : DequeCall limit d .signalFinish .success none { d with closed := true }
  | refused (job : α) (hclosed : d.closed = true) : DequeCall limit d (.push job) .finished none d
  | drained (hitems : d.items = []) (hclosed : d.closed = true) :
      DequeCall limit d .pop .finished none d
  | failed (op : StackOp α) : DequeCall limit d op .fail none d

/-! ## The history of the calls -/

/-- A thread calls an operation, the operation acts on the stack and settles its result, and
it returns. -/
inductive StackEvent (α : Type) where
  | called (t : ℕ) (op : StackOp α)
  | acted (t : ℕ) (op : StackOp α) (status : Status) (out : Option α)
  | returned (t : ℕ) (op : StackOp α) (status : Status) (out : Option α)

def StackEvent.thread : StackEvent α → ℕ
  | .called t _ => t
  | .acted t _ _ _ => t
  | .returned t _ _ _ => t

/-- What the step of thread `t` from one line to another adds to the history. -/
def stackCallEvents (t : ℕ) : StackPc α → StackPc α → List (StackEvent α)
  | .testFinished _, .returned op status out => [.acted t op status out, .returned t op status out]
  | .body _, .returned op status out => [.acted t op status out, .returned t op status out]
  | .body _, .unlock op status out => [.acted t op status out]
  | .waiting _ _, .unlock op status out => [.acted t op status out]
  | .unlock _ _ _, .returned op status out => [.returned t op status out]
  | _, _ => []

def dequeEvents (s : StackState α) (label : StackLabel α) (s' : StackState α) :
    List (StackEvent α) :=
  match label with
  | .start t op => [.called t op]
  | .advance t => stackCallEvents t (s.pcs t) (s'.pcs t)
  | .drop _ => []

/-- The runs of a job stack with the history of its calls. -/
def jobStackHistory (α : Type) (maxJobs reserveSlots : ℤ) :
    System (StackState α × List (StackEvent α)) (StackLabel α) :=
  (jobStackSystem α maxJobs reserveSlots).logged dequeEvents

/-- The acts of a history lead from one sequence to the other. -/
def DequeActs (limit : ℤ) : Deque α → List (StackEvent α) → Deque α → Prop
  | d, [], d' => d' = d
  | d, .acted _ op status out :: events, d' =>
      ∃ next, DequeCall limit d op status out next ∧ DequeActs limit next events d'
  | d, .called _ _ :: events, d' => DequeActs limit d events d'
  | d, .returned _ _ _ _ :: events, d' => DequeActs limit d events d'

/-- How far the last call of a thread has come. -/
inductive CallPhase (α : Type) where
  | outside
  | called (op : StackOp α)
  | acted (op : StackOp α) (status : Status) (out : Option α)

/-- The part of a history that belongs to thread `t` is one call after the other; each acts
once before it returns, and returns what it settled then. -/
inductive OneActPerCall (t : ℕ) : List (StackEvent α) → CallPhase α → Prop
  | nil : OneActPerCall t [] .outside
  | called {log : List (StackEvent α)} (op : StackOp α) (h : OneActPerCall t log .outside) :
      OneActPerCall t (log ++ [.called t op]) (.called op)
  | acted {log : List (StackEvent α)} {op : StackOp α} (status : Status) (out : Option α)
      (h : OneActPerCall t log (.called op)) :
      OneActPerCall t (log ++ [.acted t op status out]) (.acted op status out)
  | returned {log : List (StackEvent α)} {op : StackOp α} {status : Status} {out : Option α}
      (h : OneActPerCall t log (.acted op status out)) :
      OneActPerCall t (log ++ [.returned t op status out]) .outside
  | other {log : List (StackEvent α)} {phase : CallPhase α} (event : StackEvent α)
      (hother : event.thread ≠ t) (h : OneActPerCall t log phase) :
      OneActPerCall t (log ++ [event]) phase

def StackPc.phase : StackPc α → CallPhase α
  | .idle => .outside
  | .testFinished job => .called (.pushBack job)
  | .lock op => .called op
  | .body op => .called op
  | .waiting _ op => .called op
  | .unlock op status out => .acted op status out
  | .returned _ _ _ => .outside

/-! ## The cells and the sequence -/

/-- The cells below `top` hold the items, bottom first. -/
structure StackHolds (stack : JobStack α) (d : Deque α) : Prop where
  top : stack.top = d.items.length
  cells : ∀ i < d.items.length, stack.contentBase i = d.items[i]?
  closed : stack.finished = d.closed

variable {stack stack' : JobStack α} {d d' : Deque α} {log events : List (StackEvent α)}
  {s s' : StackState α} {maxJobs reserveSlots limit : ℤ}

theorem StackHolds.pushed (h : StackHolds stack d) (job : α) :
    StackHolds { jobStackSetItem stack stack.top (some job) with top := stack.top + 1 }
      { d with items := d.items ++ [job] } := by
  obtain ⟨htop, hcells, hclosed⟩ := h
  refine ⟨by simp [htop], fun i hi ↦ ?_, hclosed⟩
  simp only [List.length_append, List.length_singleton] at hi
  simp only [jobStackSetItem, Function.update_apply, htop]
  by_cases hlast : i = d.items.length
  · rw [hlast, if_pos rfl, List.getElem?_concat_length]
  · have hlow : i < d.items.length := by omega
    rw [if_neg (by omega), hcells i hlow, List.getElem?_append_left hlow]

theorem StackHolds.pushedBack (h : StackHolds stack d) (job : α) :
    StackHolds (jobStackPushBack stack job).stack { d with items := job :: d.items } := by
  obtain ⟨htop, hcells, hclosed⟩ := h
  refine ⟨?_, fun i hi ↦ ?_, ?_⟩
  · simp [jobStackPushBack, jobStackSetItem, htop]
  · simp only [List.length_cons] at hi
    simp only [jobStackPushBack, jobStackSetItem, Function.update_apply, shiftItems_contentBase]
    cases i with
    | zero => rfl
    | succ i =>
        have hlow : i < d.items.length := by omega
        have hdown : ((i + 1 : ℕ) : ℤ) - 1 = i := by omega
        rw [if_neg (by omega), if_pos (by omega), hdown, hcells i hlow, List.getElem?_cons_succ]
  · simpa [jobStackPushBack, jobStackSetItem] using hclosed

/-- What a pop takes is the last item. -/
theorem StackHolds.popped (h : StackHolds stack d) (hne : stack.top ≠ 0) :
    ∃ rest job, d.items = rest ++ [job] ∧
      jobStackGetItem stack (stack.top - 1) = some job ∧
        StackHolds { stack with top := stack.top - 1 } { d with items := rest } := by
  obtain ⟨htop, hcells, hclosed⟩ := h
  rcases List.eq_nil_or_concat d.items with hnil | ⟨rest, job, hitems⟩
  · rw [hnil] at htop
    exact absurd htop hne
  · rw [List.concat_eq_append] at hitems
    have hlen : d.items.length = rest.length + 1 := by
      rw [hitems]
      simp
    have hlast : stack.top - 1 = rest.length := by omega
    refine ⟨rest, job, hitems, ?_, hlast, fun i hi ↦ ?_, hclosed⟩
    · rw [jobStackGetItem, hlast, hcells rest.length (by omega), hitems,
        List.getElem?_concat_length]
    · have hlow : i < rest.length := hi
      rw [hcells i (by omega), hitems, List.getElem?_append_left hlow]

/-- The locked part of an operation acts on the sequence, and an operation that has to wait
has not touched it. -/
theorem LockedChange.acts {op : StackOp α} {locked : Locked α} (h : LockedChange stack op locked)
    (hd : StackHolds stack d) :
    match locked.exit with
    | .keep status => ∃ d', StackHolds locked.stack d' ∧
        DequeCall stack.maxJobCount d op status none d'
    | .wait _ => locked.stack = stack
    | .unlock status out => ∃ d', StackHolds locked.stack d' ∧
        DequeCall stack.maxJobCount d op status out d' := by
  cases h with
  | refused job hfin => exact ⟨d, hd, .refused job (hd.closed ▸ hfin)⟩
  | full job hfin htop => rfl
  | pushed job hfin htop =>
      rw [hd.top] at htop
      exact ⟨_, hd.pushed job, .pushed job (hd.closed ▸ hfin) htop⟩
  | pushedBack job => exact ⟨_, hd.pushedBack job, .pushedBack job⟩
  | empty htop hfin => rfl
  | drained htop hfin =>
      have hitems : d.items = [] := by
        apply List.length_eq_zero_iff.mp
        have := hd.top
        omega
      exact ⟨d, hd, .drained hitems (hd.closed ▸ hfin)⟩
  | popped htop =>
      obtain ⟨rest, job, hitems, hjob, hrest⟩ := hd.popped htop
      refine ⟨_, hrest, ?_⟩
      rw [hjob]
      exact .popped rest job hitems
  | signalled => exact ⟨{ d with closed := true }, ⟨hd.top, hd.cells, rfl⟩, .signalled⟩

/-- A locked part writes no cell above `top`. -/
theorem LockedChange.written {op : StackOp α} {locked : Locked α}
    (h : LockedChange stack op locked) (htop : 0 ≤ stack.top) :
    ∀ index ∈ locked.stack.written, index ∈ stack.written ∨ 0 ≤ index ∧ index ≤ stack.top := by
  intro index hindex
  cases h with
  | pushed job hfin hroom =>
      rcases List.mem_cons.mp hindex with rfl | hold
      · exact .inr ⟨htop, le_refl _⟩
      · exact .inl hold
  | pushedBack job =>
      rcases List.mem_cons.mp hindex with rfl | hold
      · exact .inr ⟨le_refl _, htop⟩
      · rcases mem_shiftItems_written hold with hold | ⟨hlow, hhigh⟩
        · exact .inl hold
        · exact .inr ⟨by omega, by omega⟩
  | refused | full | empty | drained | popped | signalled => exact .inl hindex

theorem LockedChange.maxJobCount {op : StackOp α} {locked : Locked α}
    (h : LockedChange stack op locked) : locked.stack.maxJobCount = stack.maxJobCount := by
  cases h with
  | pushedBack job => simp [jobStackPushBack, jobStackSetItem]
  | refused | full | pushed | empty | drained | popped | signalled => rfl

/-! ## Every step -/

/-- The data of the stack changes in a locked part or not at all. -/
theorem StackStep.stack_eq {t : ℕ} {sh sh' : StackShared α} {pc pc' : StackPc α}
    (h : StackStep t sh pc sh' pc') :
    sh'.stack = sh.stack ∨ ∃ op : StackOp α, sh'.stack = (op.run sh.stack).stack := by
  cases h with
  | keep hrun => exact .inr ⟨_, by rw [hrun]⟩
  | wait hrun => exact .inr ⟨_, by rw [hrun]⟩
  | leave hrun => exact .inr ⟨_, by rw [hrun]⟩
  | testFail | testPass | lock | spurious | relock | unlock => exact .inl rfl

theorem StackStep.acts {t : ℕ} {sh sh' : StackShared α} {pc pc' : StackPc α}
    (h : StackStep t sh pc sh' pc') (hd : StackHolds sh.stack d) :
    ∃ d', StackHolds sh'.stack d' ∧
      DequeActs sh.stack.maxJobCount d (stackCallEvents t pc pc') d' := by
  cases h with
  | testFail => exact ⟨d, hd, d, .failed _, rfl⟩
  | testPass | lock | spurious | unlock => exact ⟨d, hd, rfl⟩
  | relock => exact ⟨d, hd, d, .failed _, rfl⟩
  | @keep op _ _ hrun =>
      have hacts := (StackOp.run_change sh.stack op).acts hd
      rw [hrun] at hacts
      obtain ⟨d', hd', hcall⟩ := hacts
      exact ⟨d', hd', d', hcall, rfl⟩
  | @wait op _ _ hrun =>
      have hsame := (StackOp.run_change sh.stack op).acts hd
      rw [hrun] at hsame
      refine ⟨d, ?_, rfl⟩
      simp only at hsame
      rwa [hsame]
  | @leave op _ _ _ _ _ hrun _ =>
      have hacts := (StackOp.run_change sh.stack op).acts hd
      rw [hrun] at hacts
      obtain ⟨d', hd', hcall⟩ := hacts
      exact ⟨d', hd', d', hcall, rfl⟩

theorem StackRunStep.acts {label : StackLabel α} (h : StackRunStep s label s')
    (hd : StackHolds s.shared.stack d) :
    ∃ d', StackHolds s'.shared.stack d' ∧
      DequeActs s.shared.stack.maxJobCount d (dequeEvents s label s') d' := by
  cases h with
  | start op => exact ⟨d, hd, rfl⟩
  | drop => exact ⟨d, hd, rfl⟩
  | @advance t _ _ h =>
      have hpc' : ∀ pc', Function.update s.pcs t pc' t = pc' := fun pc' ↦ by simp
      simp only [dequeEvents, hpc']
      exact h.acts hd

/-- The calls of another thread are not touched by the events of thread `t`. -/
theorem OneActPerCall.append {t u : ℕ} {phase : CallPhase α} (h : OneActPerCall u log phase)
    (hother : ∀ event ∈ events, event.thread = t) (hne : t ≠ u) :
    OneActPerCall u (log ++ events) phase := by
  induction events generalizing log with
  | nil => simpa using h
  | cons event events ih =>
      have hevent : event.thread ≠ u := by
        rw [hother event List.mem_cons_self]
        exact hne
      have hrest := ih (.other event hevent h) fun e he ↦ hother e (List.mem_cons_of_mem _ he)
      rwa [List.append_assoc] at hrest

theorem thread_of_mem_stackCallEvents {t : ℕ} {pc pc' : StackPc α} :
    ∀ event ∈ stackCallEvents t pc pc', event.thread = t := by
  intro event hevent
  unfold stackCallEvents at hevent
  split at hevent <;> simp only [List.mem_cons, List.not_mem_nil, or_false] at hevent
  · rcases hevent with rfl | rfl <;> rfl
  · rcases hevent with rfl | rfl <;> rfl
  · rw [hevent]; rfl
  · rw [hevent]; rfl
  · rw [hevent]; rfl

theorem StackStep.oneActPerCall {t : ℕ} {sh sh' : StackShared α} {pc pc' : StackPc α}
    (h : StackStep t sh pc sh' pc') (hlog : OneActPerCall t log pc.phase) :
    OneActPerCall t (log ++ stackCallEvents t pc pc') pc'.phase := by
  have htwo : ∀ op status out, OneActPerCall t log (.called op) →
      OneActPerCall t (log ++ [.acted t op status out, .returned t op status out]) .outside := by
    intro op status out hcalled
    have hboth := (hcalled.acted status out).returned
    rwa [List.append_assoc] at hboth
  cases h with
  | testFail => exact htwo _ _ _ hlog
  | keep => exact htwo _ _ _ hlog
  | leave => exact hlog.acted _ _
  | relock => exact hlog.acted _ _
  | unlock => exact hlog.returned
  | testPass | lock | wait | spurious =>
      rw [show stackCallEvents t _ _ = [] from rfl, List.append_nil]
      exact hlog

/-! ## Every run -/

/-- What holds of a stack and the history of its calls. -/
structure HistoryHolds (maxJobs reserveSlots : ℤ) (s : StackState α) (log : List (StackEvent α)) :
    Prop where
  max : s.shared.stack.maxJobCount = maxJobs
  deque : ∃ d, StackHolds s.shared.stack d ∧ DequeActs maxJobs Deque.empty log d
  calls : ∀ t, OneActPerCall t log (s.pcs t).phase

theorem DequeActs.append {next : Deque α} (h : DequeActs limit d log next)
    (hevents : DequeActs limit next events d') : DequeActs limit d (log ++ events) d' := by
  induction log generalizing d with
  | nil =>
      cases h
      exact hevents
  | cons event log ih =>
      cases event with
      | called | returned => exact ih h
      | acted =>
          obtain ⟨mid, hcall, hrest⟩ := h
          exact ⟨mid, hcall, ih hrest⟩

theorem StackPc.Outside.phase {pc : StackPc α} (h : pc.Outside) : pc.phase = .outside := by
  cases pc with
  | idle | returned => rfl
  | testFinished | lock | body | waiting | unlock => cases h

theorem StackOp.phase_enter (op : StackOp α) : op.enter.phase = .called op := by
  cases op <;> rfl

theorem HistoryHolds.calls_step {label : StackLabel α}
    (hs : HistoryHolds maxJobs reserveSlots s log) (h : StackRunStep s label s') (u : ℕ) :
    OneActPerCall u (log ++ dequeEvents s label s') (s'.pcs u).phase := by
  cases h with
  | @start t op hout =>
      have hcalls := hs.calls u
      by_cases hu : u = t
      · subst hu
        rw [hout.phase] at hcalls
        simpa [dequeEvents, StackOp.phase_enter] using hcalls.called op
      · simp only [dequeEvents, Function.update_of_ne hu]
        exact hcalls.other _ (Ne.symm hu)
  | drop => simpa [dequeEvents] using hs.calls u
  | @advance t _ _ h =>
      have hpc : ∀ pc', Function.update s.pcs t pc' t = pc' := fun pc' ↦ by simp
      simp only [dequeEvents, hpc]
      by_cases hu : u = t
      · subst hu
        rw [hpc]
        exact h.oneActPerCall (hs.calls u)
      · rw [Function.update_of_ne hu]
        exact (hs.calls u).append thread_of_mem_stackCallEvents (Ne.symm hu)

theorem StackRunStep.stack_eq {label : StackLabel α} (h : StackRunStep s label s') :
    s'.shared.stack = s.shared.stack ∨
      ∃ op : StackOp α, s'.shared.stack = (op.run s.shared.stack).stack := by
  cases h with
  | start | drop => exact .inl rfl
  | advance h => exact h.stack_eq

theorem historyHolds_reachable
    (hs : (jobStackHistory α maxJobs reserveSlots).Reachable (s, log)) :
    HistoryHolds maxJobs reserveSlots s log := by
  suffices h : ∀ p, (jobStackHistory α maxJobs reserveSlots).Reachable p →
      HistoryHolds maxJobs reserveSlots p.1 p.2 from h _ hs
  intro p hp
  apply System.reachable_induction ?_ ?_ hp
  · rintro ⟨s, log⟩ ⟨rfl, rfl⟩
    exact ⟨rfl, ⟨Deque.empty, ⟨rfl, by simp [Deque.empty], rfl⟩, rfl⟩, fun _ ↦ .nil⟩
  · rintro ⟨s, log⟩ label ⟨s', log'⟩ ih ⟨hstep, hlog'⟩
    simp only at ih hstep hlog' ⊢
    subst hlog'
    obtain ⟨d, hd, hlog⟩ := ih.deque
    obtain ⟨d', hd', hacts⟩ := hstep.acts hd
    refine ⟨?_, ⟨d', hd', hlog.append (ih.max ▸ hacts)⟩, ih.calls_step hstep⟩
    rcases hstep.stack_eq with hsame | ⟨op, hop⟩
    · exact hsame ▸ ih.max
    · rw [hop, (StackOp.run_change s.shared.stack op).maxJobCount]
      exact ih.max

/-- The stack refines a double-ended sequence: the cells below `top` hold what the calls have
made of an empty one, the next step of any thread acts on that, and each call acts once
between its call and its return.  No step writes outside the array. -/
structure RefinesDeque (maxJobs reserveSlots : ℤ) (s : StackState α) (log : List (StackEvent α)) :
    Prop where
  calls : ∀ t, OneActPerCall t log (s.pcs t).phase
  deque : ∃ d, StackHolds s.shared.stack d ∧ DequeActs maxJobs Deque.empty log d ∧
    ∀ label s', StackRunStep s label s' →
      ∃ d', StackHolds s'.shared.stack d' ∧ DequeActs maxJobs d (dequeEvents s label s') d'
  writes : ∀ label s', StackRunStep s label s' → ∀ index ∈ s'.shared.stack.written,
    index ∈ s.shared.stack.written ∨ 0 ≤ index ∧ index < maxJobs + reserveSlots + 1

theorem jobStack_refines_deque (hs : (jobStackHistory α maxJobs reserveSlots).Reachable (s, log))
    (htop : s.shared.stack.top < maxJobs + reserveSlots + 1) :
    RefinesDeque maxJobs reserveSlots s log := by
  have hholds := historyHolds_reachable hs
  obtain ⟨d, hd, hlog⟩ := hholds.deque
  refine ⟨hholds.calls, ⟨d, hd, hlog, fun label s' hstep ↦ ?_⟩, fun label s' hstep ↦ ?_⟩
  · have hacts := hstep.acts hd
    rwa [hholds.max] at hacts
  · intro index hindex
    rcases hstep.stack_eq with hsame | ⟨op, hop⟩
    · exact .inl (hsame ▸ hindex)
    · rw [hop] at hindex
      have hnonneg : 0 ≤ s.shared.stack.top := by
        rw [hd.top]
        omega
      have hwritten := (StackOp.run_change s.shared.stack op).written hnonneg index hindex
      apply hwritten.imp_right
      rintro ⟨hlow, hhigh⟩
      exact ⟨hlow, by omega⟩

/-- After one push into a stack with room for one job. -/
theorem jobStack_refines_deque_first_push :
    ∃ (s : StackState ℕ) (log : List (StackEvent ℕ)),
      log = [.called 1 (.push 7), .acted 1 (.push 7) .success none] ∧
        RefinesDeque 1 1 s log := by
  have hinit : (jobStackHistory ℕ 1 1).Reachable (stackInit 1 1, []) := .init ⟨rfl, rfl⟩
  have hcall := hinit.log (.start (t := 1) (.push 7) trivial)
  have hlock := hcall.log (.of_pc (t := 1) (.lock (.push 7)) rfl (.lock rfl))
  have hpush := hlock.log (.of_pc (t := 1) (.body (.push 7)) rfl
    (.leave rfl (.signal ∅ (Finset.empty_subset _) fun h ↦ h.ne_empty.symm)))
  exact ⟨_, _, rfl, jobStack_refines_deque hpush (by decide)⟩

end HttpProxy
