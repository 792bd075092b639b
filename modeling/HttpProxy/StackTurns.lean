import HttpProxy.JobHistory
import HttpProxy.WorkerRoles

/-!
# Waiting jobs take turns

The jobs on a stack keep their order, whatever is pushed onto it or pushed back below them, and
they are popped from the top.  A job that waits for its client is pushed back to the bottom; so
before a worker looks at it again, every other job that was on the stack has been popped.
-/

namespace HttpProxy

open Transition Ownership

/-! ## One stack -/

section Slots

variable {stack stack' : JobStack ℕ} {pc pc' : StackPc ℕ} {job above : ℕ}

/-- The second job lies on the stack somewhere above the first one. -/
def JobStack.Under (stack : JobStack ℕ) (job above : ℕ) : Prop :=
  ∃ a b, a < b ∧ stack.slot a = some job ∧ stack.slot b = some above

/-- No job is in two slots. -/
def JobStack.Distinct (stack : JobStack ℕ) : Prop :=
  ∀ a b job, stack.slot a = some job → stack.slot b = some job → a = b

theorem JobStack.slot_lt_top {index : ℤ} (h : stack.slot index = some job) :
    0 ≤ index ∧ index < stack.top := by
  rw [JobStack.slot] at h
  split_ifs at h with hindex
  exact hindex

/-- A job that is under another one stays so, until that one is popped. -/
theorem SlotChange.under (h : SlotChange stack stack' pc pc') (hdistinct : stack.Distinct)
    (hunder : stack.Under job above) :
    stackEvents pc pc' = [.popped above] ∨
      stack'.Under job above ∧ .popped job ∉ stackEvents pc pc' := by
  obtain ⟨a, b, hab, ha, hb⟩ := hunder
  cases h with
  | same hslot hpc =>
      obtain ⟨-, -, hevents⟩ := hands_kept none none hpc
      exact .inr ⟨⟨a, b, hab, by rw [hslot, ha], by rw [hslot, hb]⟩, by simp [hevents]⟩
  | pushed new hpc hpc' hempty hslot =>
      subst hpc hpc'
      have hkept : ∀ {index old}, stack.slot index = some old → stack'.slot index = some old := by
        intro index old hold
        have hne : index ≠ stack.top := by
          rintro rfl
          simp [hempty] at hold
        rw [hslot, Function.update_of_ne hne, hold]
      exact .inr ⟨⟨a, b, hab, hkept ha, hkept hb⟩, by simp [stackEvents]⟩
  | pushedBack new hpc hpc' hempty hslot =>
      subst hpc hpc'
      have hraised : ∀ {index old}, stack.slot index = some old →
          stack'.slot (index + 1) = some old := by
        intro index old hold
        have hlow := (JobStack.slot_lt_top hold).1
        rw [hslot, Function.update_of_ne (by omega)]
        simpa using hold
      exact .inr ⟨⟨a + 1, b + 1, by omega, hraised ha, hraised hb⟩, by simp [stackEvents]⟩
  | popped top hpc hpc' htop hslot =>
      subst hpc hpc'
      by_cases hlast : b = stack.top - 1
      · obtain rfl : top = above := by
          rw [hlast, htop] at hb
          exact Option.some.inj hb
        exact .inl rfl
      · have hbtop := (JobStack.slot_lt_top hb).2
        have hkept : ∀ {index old}, index ≠ stack.top - 1 → stack.slot index = some old →
            stack'.slot index = some old := by
          intro index old hne hold
          rw [hslot, Function.update_of_ne hne, hold]
        refine .inr ⟨⟨a, b, hab, hkept (by omega) ha, hkept hlast hb⟩, ?_⟩
        have hne : job ≠ top := by
          rintro rfl
          have hsame := hdistinct a _ _ ha htop
          omega
        simpa [stackEvents] using hne

theorem SlotChange.slot_of_popped (h : SlotChange stack stack' pc pc')
    (hmem : .popped job ∈ stackEvents pc pc') : ∃ index, stack.slot index = some job := by
  cases h with
  | same hslot hpc =>
      obtain ⟨-, -, hevents⟩ := hands_kept none none hpc
      simp [hevents] at hmem
  | pushed new hpc hpc' | pushedBack new hpc hpc' =>
      subst hpc hpc'
      simp [stackEvents] at hmem
  | popped top hpc hpc' htop hslot =>
      subst hpc hpc'
      obtain rfl : job = top := by simpa [stackEvents] using hmem
      exact ⟨_, htop⟩

end Slots

/-! ## The pool -/

variable {ι : Type} [DecidableEq ι] {cfg : PoolConfig ι} {s s₀ s' : PoolState ι} {t : ℕ}
  {as : List ℕ} {maxJobs reserveSlots : ι → ℤ} {i : ι} {job above : ℕ}

/-- Only a step inside an operation of a stack changes the stack, pops a job or pushes one
back. -/
theorem PoolStep.slots (hfits : PoolFits s) (h : PoolStep cfg t s s') :
    (s'.jobStacks = s.jobStacks ∧ ∃ events, s'.log = s.log ++ events ∧
        ∀ job, .popped job ∉ events ∧ .pushedBack job ∉ events) ∨
      ∃ i pc pc' rest shared, (s.threads t).pc = .inside i pc rest ∧
        s' = s.move t i rest pc pc' shared ∧
          SlotChange (s.jobStacks i).stack shared.stack pc pc' := by
  cases h with
  | inside hpc h => exact .inr ⟨_, _, _, _, _, hpc, rfl, (h.slotChange (hfits.filled _)).1⟩
  | accept | dispatch | process | terminate | pushBackFailed =>
      exact .inl ⟨rfl, _, rfl, by simp⟩
  | _ => exact .inl ⟨rfl, [], (List.append_nil _).symm, by simp⟩

omit [DecidableEq ι] in
theorem JobsOwned.distinct (hs : JobsOwned s) (i : ι) : (s.jobStacks i).stack.Distinct := by
  intro a b job ha hb
  have hplace : (Place.slot i a : Place ι) = .slot i b := hs.exclusive ha hb
  exact (Place.slot.inj hplace).2

/-- One step: a job that is under another one stays so, until that one is popped. -/
theorem PoolStep.under (howned : JobsOwned s) (h : PoolStep cfg t s s')
    (hunder : (s.jobStacks i).stack.Under job above) :
    ∃ events, s'.log = s.log ++ events ∧
      (events = [.popped above] ∨
        (s'.jobStacks i).stack.Under job above ∧ .popped job ∉ events) := by
  rcases h.slots howned.fits with ⟨hstacks, events, hlog, hquiet⟩ |
    ⟨j, pc, pc', rest, shared, -, rfl, hchange⟩
  · exact ⟨events, hlog, .inr ⟨by rwa [hstacks], (hquiet job).1⟩⟩
  · refine ⟨stackEvents pc pc', rfl, ?_⟩
    by_cases hji : j = i
    · subst hji
      have hafter := hchange.under (howned.distinct j) hunder
      simpa [PoolState.move] using hafter
    · have hsame : ((s.move t j rest pc pc' shared).jobStacks i).stack = (s.jobStacks i).stack := by
        simp [PoolState.move, Ne.symm hji]
      refine .inr ⟨by rwa [hsame], fun hmem ↦ hji ?_⟩
      obtain ⟨a, b, -, ha, -⟩ := hunder
      obtain ⟨index, hindex⟩ := hchange.slot_of_popped hmem
      have hplace : (Place.slot j index : Place ι) = .slot i a := howned.exclusive hindex ha
      exact (Place.slot.inj hplace).1

theorem PoolStep.log_append (h : PoolStep cfg t s s') : ∃ events, s'.log = s.log ++ events := by
  cases h with
  | inside | accept | dispatch | process | terminate | pushBackFailed => exact ⟨_, rfl⟩
  | _ => exact ⟨[], (List.append_nil _).symm⟩

theorem run_log_append (hrun : (workerPool cfg maxJobs reserveSlots).Run s as s') :
    ∃ events, s'.log = s.log ++ events := by
  induction hrun with
  | nil s => exact ⟨[], (List.append_nil _).symm⟩
  | cons h _ ih =>
      obtain ⟨first, hfirst⟩ := PoolStep.log_append h
      obtain ⟨rest, hrest⟩ := ih
      exact ⟨first ++ rest, by rw [hrest, hfirst, List.append_assoc]⟩

/-- Whenever the first job is popped, the second one was popped before. -/
def PoppedAfter (job above : ℕ) (events : List JobEvent) : Prop :=
  ∀ before after, events = before ++ .popped job :: after → .popped above ∈ before

theorem PoppedAfter.of_above (hne : job ≠ above) (events : List JobEvent) :
    PoppedAfter job above (.popped above :: events) := by
  intro before after hsplit
  cases before with
  | nil =>
      have hsame := (List.cons.inj hsplit).1
      exact absurd (JobEvent.popped.inj hsame).symm hne
  | cons first before =>
      obtain ⟨rfl, -⟩ := List.cons.inj hsplit
      exact List.mem_cons_self

theorem PoppedAfter.append {first rest : List JobEvent} (h : PoppedAfter job above rest)
    (hnot : .popped job ∉ first) : PoppedAfter job above (first ++ rest) := by
  intro before after hsplit
  rcases List.append_eq_append_iff.mp hsplit with ⟨mid, rfl, hrest⟩ | ⟨mid, rfl, hmid⟩
  · exact List.mem_append_right _ (h mid after hrest)
  · cases mid with
    | nil => exact absurd (h [] after (by simpa using hmid.symm)) List.not_mem_nil
    | cons event mid =>
        obtain ⟨rfl, -⟩ := List.cons.inj hmid
        simp at hnot

/-- In every run from here on, a job on a stack is popped only after each job above it. -/
theorem pops_from_top (hs : (workerPool cfg maxJobs reserveSlots).Reachable s)
    (hunder : (s.jobStacks i).stack.Under job above)
    (hrun : (workerPool cfg maxJobs reserveSlots).Run s as s') :
    ∃ events, s'.log = s.log ++ events ∧ PoppedAfter job above events := by
  have hne : job ≠ above := by
    rintro rfl
    obtain ⟨a, b, hab, ha, hb⟩ := hunder
    have hsame := (jobsOwned_reachable hs).distinct i a b _ ha hb
    omega
  induction hrun with
  | nil s => exact ⟨[], (List.append_nil _).symm, fun before after h ↦ by simp at h⟩
  | cons h hrun ih =>
      obtain ⟨first, hfirst, hcases⟩ := PoolStep.under (jobsOwned_reachable hs) h hunder
      rcases hcases with rfl | ⟨hunder', hnot⟩
      · obtain ⟨rest, hrest⟩ := run_log_append hrun
        refine ⟨.popped above :: rest, by rw [hrest, hfirst, List.append_assoc]; rfl, ?_⟩
        exact .of_above hne rest
      · obtain ⟨rest, hrest, hafter⟩ := ih (hs.step h) hunder'
        exact ⟨first ++ rest, by rw [hrest, hfirst, List.append_assoc], hafter.append hnot⟩

/-- A job that is pushed back comes to the bottom of the clients' stack. -/
theorem PoolStep.bottom_of_pushedBack (hs : (workerPool cfg maxJobs reserveSlots).Reachable s)
    (h : PoolStep cfg t s s') (hback : s'.log = s.log ++ [.pushedBack job]) :
    (s'.jobStacks cfg.client).stack.slot 0 = some job := by
  rcases h.slots (jobsOwned_reachable hs).fits with ⟨-, events, hlog, hquiet⟩ |
    ⟨i, pc, pc', rest, shared, hpc, rfl, hchange⟩
  · have hevents : events = [.pushedBack job] := List.append_cancel_left (hlog.symm.trans hback)
    exact absurd (by simp [hevents]) (hquiet job).2
  · have hevents : stackEvents pc pc' = [.pushedBack job] := List.append_cancel_left hback
    cases hchange with
    | same _ hquiet =>
        obtain ⟨-, -, hnone⟩ := hands_kept none none hquiet
        simp [hnone] at hevents
    | pushed new hfrom hto | popped new hfrom hto =>
        subst hfrom hto
        simp [stackEvents] at hevents
    | pushedBack new hfrom hto hempty hslot =>
        subst hfrom hto
        obtain rfl : new = job := by simpa [stackEvents] using hevents
        have hplays := plays_reachable hs t
        rw [hpc] at hplays
        obtain ⟨rfl, -⟩ := hplays.worker_of_pushBack rfl
        simp [PoolState.move, hslot]

/-- A job that waits for its client is popped again only after every other job that was on the
stack when it was pushed back. -/
theorem waiting_jobs_take_turns (hs : (workerPool cfg maxJobs reserveSlots).Reachable s₀)
    (h : PoolStep cfg t s₀ s) (hback : s.log = s₀.log ++ [.pushedBack job])
    (hrun : (workerPool cfg maxJobs reserveSlots).Run s as s') :
    ∃ events, s'.log = s.log ++ events ∧ ∀ above index,
      s.holds (.slot cfg.client index) = some above → above ≠ job →
        PoppedAfter job above events := by
  have hs' := hs.step h
  have hbottom := h.bottom_of_pushedBack hs hback
  obtain ⟨events, hlog⟩ := run_log_append hrun
  refine ⟨events, hlog, fun above index habove hne ↦ ?_⟩
  have hindex : (s.jobStacks cfg.client).stack.slot index = some above := habove
  have hpositive : index ≠ 0 := by
    rintro rfl
    rw [hbottom] at hindex
    exact hne (Option.some.inj hindex).symm
  have hnonneg := (JobStack.slot_lt_top hindex).1
  obtain ⟨events', hlog', hafter⟩ := pops_from_top hs' ⟨0, index, by omega, hbottom, hindex⟩ hrun
  obtain rfl : events' = events := List.append_cancel_left (hlog'.symm.trans hlog)
  exact hafter

/-- A second client has come while the first one was looked at: it is popped first. -/
theorem waiting_jobs_take_turns_twoClients :
    ∃ s s' : PoolState ServerStack, s.log = [.accepted 0, .pushed 0, .popped 0, .processed 0,
        .accepted 1, .pushed 1, .pushedBack 0] ∧ s'.log = s.log ++ [.popped 1] ∧
      PoppedAfter 0 1 [.popped 1] := by
  have hinit : (workerPool (serverConfig (fun t ↦ if t = 0 then .main else .worker .client)
      fun job code ↦ code = .ret (.enqueue, job)) (fun _ ↦ 2) (fun _ ↦ 1)).Reachable _ :=
    .init rfl
  have haccept := hinit.step (.accept (t := 0) 5 rfl rfl)
  have hlock := haccept.step (.inside (t := 0) rfl (.lock rfl))
  have hpush := hlock.step (.inside (t := 0) rfl
    (.leave rfl (.signal ∅ (Finset.empty_subset _) fun h ↦ h.ne_empty.symm)))
  have hunlock := hpush.step (.inside (t := 0) rfl .unlock)
  have haccepted := hunlock.step (.accepted (t := 0) rfl (by simp))
  have hpoll := haccepted.step (.poll (t := 1) (i := .client) rfl rfl)
  have hlock₁ := hpoll.step (.inside (t := 1) rfl (.lock rfl))
  have hpop := hlock₁.step (.inside (t := 1) rfl
    (.leave rfl (.signal ∅ (Finset.empty_subset _) fun h ↦ h.ne_empty.symm)))
  have hunlock₁ := hpop.step (.inside (t := 1) rfl .unlock)
  have hprocess := hunlock₁.step (.process (t := 1) rfl rfl)
  have henqueue := hprocess.step (.enqueue (t := 1) rfl rfl)
  have haccept₂ := henqueue.step (.accept (t := 0) 6 rfl rfl)
  have hlock₂ := haccept₂.step (.inside (t := 0) rfl (.lock rfl))
  have hpush₂ := hlock₂.step (.inside (t := 0) rfl
    (.leave rfl (.signal ∅ (Finset.empty_subset _) fun h ↦ h.ne_empty.symm)))
  have hunlock₂ := hpush₂.step (.inside (t := 0) rfl .unlock)
  have htest := hunlock₂.step (.inside (t := 1) rfl (.testPass rfl))
  have hlock₃ := htest.step (.inside (t := 1) rfl (.lock rfl))
  have hturns := waiting_jobs_take_turns hlock₃ (.inside (t := 1) rfl
    (.leave rfl (.signal ∅ (Finset.empty_subset _) fun h ↦ h.ne_empty.symm))) rfl
    (.cons (.inside (t := 1) rfl .unlock) (.cons (.pushedBack (t := 1) rfl)
      (.cons (.poll (t := 1) (i := .client) rfl rfl) (.cons (.inside (t := 1) rfl (.lock rfl))
        (.cons (.inside (t := 1) rfl
          (.leave rfl (.signal ∅ (Finset.empty_subset _) fun h ↦ h.ne_empty.symm))) (.nil _))))))
  obtain ⟨events, hlog, hafter⟩ := hturns
  obtain rfl : [.popped 1] = events := List.append_cancel_left hlog
  exact ⟨_, _, rfl, hlog, hafter 1 1 rfl (by decide)⟩

end HttpProxy
