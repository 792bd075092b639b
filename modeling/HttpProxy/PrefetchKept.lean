import HttpProxy.JobHistory
import HttpProxy.Prefetch

/-!
# Prefetch jobs on a full or finished stack

`dispatch_prefetch_jobs` does not look at what `job_stack_push` reports.  A job is kept if
the stack has room and is not finished when the push has taken the mutex, and is lost
otherwise.
-/

namespace HttpProxy

open CString Transition Interaction

variable {ι : Type} [DecidableEq ι] {cfg : PoolConfig ι} {s s' : PoolState ι} {t job : ℕ}
  {maxJobs reserveSlots : ι → ℤ}

/-- The job was accepted by a stack exactly once, or destructed. -/
def Kept (log : List JobEvent) (job : ℕ) : Prop :=
  log.count (.pushed job) = 1 ∨ .destructed job ∈ log

/-- Every job constructed in the middle of `process_job` is kept once its push is over. -/
def DispatchedKept (s : PoolState ι) : Prop :=
  ∀ job, .dispatched job ∈ s.log → (∀ t, s.holds (.fresh t) ≠ some job) → Kept s.log job

/-- Once a push in the middle of `process_job` has the mutex, its stack is neither finished
nor full. -/
def RoomAtDispatch (s : PoolState ι) (t : ℕ) : Prop :=
  ∀ i job k, (s.threads t).pc = .inside i (.body (.push job)) (some k) →
    (s.jobStacks i).stack.finished = false ∧
      (s.jobStacks i).stack.top < (s.jobStacks i).stack.maxJobCount

/-! ## A job is pushed once -/

/-- A job still in the hands it was constructed in has not been pushed. -/
structure PushedOnce (s : PoolState ι) : Prop where
  once : ∀ job, s.log.count (.pushed job) ≤ 1
  fresh : ∀ t job, s.holds (.fresh t) = some job → .pushed job ∉ s.log

theorem PushedOnce.step (hs : PushedOnce s) (howned : JobsOwned s) (h : PoolChange t s s') :
    PushedOnce s' := by
  have hquiet : ∀ {event : JobEvent}, (∀ job, event ≠ .pushed job) →
      s'.log = s.log ++ [event] → (∀ u job, s'.holds (.fresh u) = some job →
        s.holds (.fresh u) = some job ∨ job = s.next) → PushedOnce s' := by
    intro event hevent hlog hfresh
    constructor
    · intro job
      rw [hlog, List.count_append, List.count_singleton]
      simpa [hevent job] using hs.once job
    · intro u job hu
      have hold : .pushed job ∉ s.log := by
        rcases hfresh u job hu with hbefore | rfl
        · exact hs.fresh u job hbefore
        · exact fun hmem ↦ Nat.lt_irrefl _ (howned.logged _ hmem)
      simp [hlog, hold, (hevent job).symm]
  cases h with
  | keep hholds hnext hlog => exact ⟨hlog ▸ hs.once, by simpa [hlog, hholds] using hs.fresh⟩
  | construct event hevent hempty hholds hnext hlog =>
      refine hquiet (by rcases hevent with rfl | rfl <;> simp) hlog fun u job hu ↦ ?_
      by_cases hut : u = t
      · exact .inr (by simpa [hholds, hut] using hu.symm)
      · exact .inl (by simpa [hholds, hut] using hu)
  | forget i job₀ status out rest hpc hholds hnext hlog =>
      refine ⟨hlog ▸ hs.once, fun u job hu ↦ ?_⟩
      by_cases hut : u = t
      · simp [hholds, hut] at hu
      · exact hlog ▸ hs.fresh u job (by simpa [hholds, hut] using hu)
  | push i index job₀ hfrom hempty hholds hnext hlog =>
      constructor
      · intro job
        rw [hlog, List.count_append, List.count_singleton]
        by_cases hjob : job₀ = job
        · subst hjob
          have hnone := List.count_eq_zero.mpr (hs.fresh t job₀ hfrom)
          simp [hnone]
        · simpa [hjob] using hs.once job
      · intro u job hu
        by_cases hut : u = t
        · simp [hholds, hut] at hu
        · have hbefore : s.holds (.fresh u) = some job := by simpa [hholds, hut] using hu
          have hne : job ≠ job₀ := by
            rintro rfl
            exact hut (by simpa using howned.exclusive hbefore hfrom)
          simp [hlog, hs.fresh u job hbefore, hne]
  | pushBack i job₀ hfrom hempty hholds hnext hlog =>
      exact hquiet (by simp) hlog fun u job hu ↦ .inl (by simpa [hholds, Place.below] using hu)
  | pop i index job₀ hfrom hempty hholds hnext hlog =>
      exact hquiet (by simp) hlog fun u job hu ↦ .inl (by simpa [hholds] using hu)
  | process job₀ hcurrent hholds hnext hlog =>
      exact hquiet (by simp) hlog fun u job hu ↦ .inl (by simpa [hholds] using hu)
  | destruct job₀ hcurrent hholds hnext hlog =>
      exact hquiet (by simp) hlog fun u job hu ↦ .inl (by simpa [hholds] using hu)

theorem pushedOnce_reachable (hs : (workerPool cfg maxJobs reserveSlots).Reachable s) :
    PushedOnce s := by
  refine System.Preserves.reachable (K := JobsOwned) (I := PushedOnce) ⟨?_, ?_⟩
    (fun _ ↦ jobsOwned_reachable) hs
  · rintro s rfl
    exact ⟨by simp [poolInit], by simp [poolInit]⟩
  · intro s t s' howned ih h
    exact ih.step howned (PoolStep.change howned.fits h)

/-! ## A push that finds room succeeds -/

/-- A push on its way to success. -/
def StackPc.GoesThrough {α : Type} : StackPc α → Prop
  | .lock (.push _) => True
  | .body (.push _) => True
  | .unlock (.push _) .success _ => True
  | .returned (.push _) .success _ => True
  | _ => False

/-- A push in the middle of `process_job` goes through, and whoever pushes otherwise has
not dispatched the job. -/
def PoolThread.Dispatches (log : List JobEvent) (thread : PoolThread ι) : Prop :=
  match thread.pc with
  | .inside _ pc (some _) => pc.GoesThrough
  | .inside _ _ none => ∀ job, thread.fresh = some job → .dispatched job ∉ log
  | _ => True

theorem freshAfter_eq_some {fresh : Option ℕ} {pc pc' : StackPc ℕ}
    (h : freshAfter fresh pc pc' = some job) : fresh = some job := by
  unfold freshAfter at h
  split at h
  · cases h
  · exact h

theorem StackStep.goesThrough {t : ℕ} {sh sh' : StackShared ℕ} {pc pc' : StackPc ℕ}
    (h : StackStep t sh pc sh' pc') (hpc : pc.GoesThrough)
    (hroom : ∀ job, pc = .body (.push job) →
      sh.stack.finished = false ∧ sh.stack.top < sh.stack.maxJobCount) : pc'.GoesThrough := by
  have hbody : ∀ {op : StackOp ℕ} {locked : Locked ℕ}, pc = .body op → op.run sh.stack = locked →
      ∃ job, op = .push job ∧ ∃ stack wake, locked = ⟨stack, wake, .unlock .success none⟩ := by
    rintro op locked rfl rfl
    cases op with
    | push job =>
        obtain ⟨hfin, htop⟩ := hroom job rfl
        refine ⟨job, rfl, ?_⟩
        simp only [StackOp.run, jobStackPush, hfin, Bool.false_eq_true, if_false]
        rw [if_neg (by omega)]
        exact ⟨_, _, rfl⟩
    | _ => exact hpc.elim
  cases h with
  | testFail => exact hpc.elim
  | testPass => exact hpc.elim
  | lock hfree =>
      rename_i op
      cases op with
      | push job => trivial
      | _ => exact hpc.elim
  | keep hrun =>
      obtain ⟨job, rfl, stack, wake, hlocked⟩ := hbody rfl hrun
      cases hlocked
  | wait hrun =>
      obtain ⟨job, rfl, stack, wake, hlocked⟩ := hbody rfl hrun
      cases hlocked
  | leave hrun =>
      obtain ⟨job, rfl, stack, wake, hlocked⟩ := hbody rfl hrun
      cases hlocked
      trivial
  | spurious => exact hpc.elim
  | relock => exact hpc.elim
  | @unlock op status out =>
      cases op with
      | push job =>
          cases status with
          | success => trivial
          | _ => exact hpc.elim
      | _ => exact hpc.elim

omit [DecidableEq ι] in
theorem PoolThread.Dispatches.mono {thread : PoolThread ι} {log log' : List JobEvent}
    (h : thread.Dispatches log)
    (hlog : ∀ job, thread.fresh = some job → .dispatched job ∈ log' → .dispatched job ∈ log) :
    thread.Dispatches log' := by
  obtain ⟨pc, current, fresh⟩ := thread
  cases pc with
  | inside i pc rest =>
      cases rest with
      | none => exact fun job hjob hmem ↦ h job hjob (hlog job hjob hmem)
      | some k => exact h
  | _ => trivial

/-- Where the thread that takes a step is afterwards, it still dispatches. -/
theorem PoolStep.dispatches_self (howned : JobsOwned s) (hs : (s.threads t).Dispatches s.log)
    (hroom : RoomAtDispatch s t) (h : PoolStep cfg t s s') :
    (s'.threads t).Dispatches s'.log := by
  have hnone : ∀ {log : List JobEvent} {i : ι} {pc : StackPc ℕ} {current fresh : Option ℕ},
      (s.threads t).fresh = none → fresh = (s.threads t).fresh →
        PoolThread.Dispatches log ⟨.inside i pc none, current, fresh⟩ := by
    rintro log i pc current fresh hempty rfl job hjob
    simp [hempty] at hjob
  have hset : ∀ {thread : PoolThread ι} {log : List JobEvent}, thread.Dispatches log →
      (Function.update s.threads t thread t).Dispatches log := by
    intro thread log h
    simpa using h
  cases h with
  | accept fd hrole hpc =>
      apply hset
      rintro job ⟨⟩ hmem
      have hold : .dispatched s.next ∈ s.log := by simpa [PoolState.construct] using hmem
      exact Nat.lt_irrefl _ (howned.logged _ hold)
  | retry hpc =>
      rw [PoolThread.Dispatches, hpc] at hs
      exact hset hs
  | signal i hrole hpc => exact hset (hnone (howned.fits.at hpc).2 rfl)
  | poll hrole hpc => exact hset (hnone (howned.fits.at hpc).2 rfl)
  | enqueue hpc => exact hset (hnone (howned.fits.at hpc).2 rfl)
  | dispatch hpc => exact hset trivial
  | @inside i rest pc pc' shared hpc h =>
      rw [PoolThread.Dispatches, hpc] at hs
      apply hset
      cases rest with
      | none =>
          intro job hjob hmem
          apply hs job (freshAfter_eq_some hjob)
          have hchange := PoolChange.of_move hpc (howned.fits.at hpc)
            (h.slotChange (howned.fits.filled i)).1
          rcases hchange.dispatched hmem with hold | ⟨-, rfl⟩
          · exact hold
          · exact absurd (howned.alive (.fresh t) _ (freshAfter_eq_some hjob)).1
              (Nat.lt_irrefl _)
      | some k => exact h.goesThrough hs fun job hbody ↦ hroom i job k (hbody ▸ hpc)
  | _ => exact hset trivial

/-- Under the guard, a dispatched job is in the hands it was constructed in or has been
pushed. -/
structure DispatchInvariant (s : PoolState ι) : Prop where
  owned : JobsOwned s
  threads : ∀ t, (s.threads t).Dispatches s.log
  kept : ∀ job, .dispatched job ∈ s.log →
    (∃ t, s.holds (.fresh t) = some job) ∨ .pushed job ∈ s.log

theorem PoolStep.dispatches (howned : JobsOwned s) (hs : ∀ u, (s.threads u).Dispatches s.log)
    (hroom : RoomAtDispatch s t) (h : PoolStep cfg t s s') (u : ℕ) :
    (s'.threads u).Dispatches s'.log := by
  by_cases hu : u = t
  · subst hu
    exact h.dispatches_self howned (hs u) hroom
  · rw [PoolStep.threads_ne h hu]
    refine (hs u).mono fun job hjob hmem ↦ ?_
    rcases (h.change howned.fits).dispatched hmem with hold | ⟨-, rfl⟩
    · exact hold
    · exact absurd (howned.alive (.fresh u) _ hjob).1 (Nat.lt_irrefl _)

theorem DispatchInvariant.kept_step (hs : DispatchInvariant s) (h : PoolChange t s s') :
    ∀ job, .dispatched job ∈ s'.log →
      (∃ u, s'.holds (.fresh u) = some job) ∨ .pushed job ∈ s'.log := by
  intro job hmem
  rcases h.dispatched hmem with hold | ⟨hnew, -⟩
  swap
  · exact .inl ⟨t, hnew⟩
  rcases hs.kept job hold with ⟨u, hu⟩ | hpushed
  swap
  · obtain ⟨events, hlog, -⟩ := h.events fun p job hp ↦ (hs.owned.alive p job hp).1
    exact .inr (by simp [hlog, hpushed])
  · cases h with
    | keep hholds hnext hlog => exact .inl ⟨u, hholds ▸ hu⟩
    | construct event hevent hempty hholds hnext hlog =>
        have hut : u ≠ t := by
          rintro rfl
          simp [hempty] at hu
        exact .inl ⟨u, by simpa [hholds, hut] using hu⟩
    | forget i job₀ status out rest hpc hholds hnext hlog =>
        by_cases hut : u = t
        · subst hut
          have hfits := hs.owned.fits.at hpc
          have hgoes := hs.threads u
          rw [PoolThread.Dispatches, hpc] at hgoes
          cases rest with
          | none => exact absurd hold (hgoes job hu)
          | some k =>
              cases status with
              | success =>
                  have hempty : (s.threads u).fresh = none := hfits.1
                  exact absurd hu (by simp [PoolState.holds, hempty])
              | _ => exact hgoes.elim
        · exact .inl ⟨u, by simpa [hholds, hut] using hu⟩
    | push i index job₀ hfrom hempty hholds hnext hlog =>
        by_cases hut : u = t
        · subst hut
          obtain rfl : job₀ = job := by simpa [hfrom] using hu
          exact .inr (by simp [hlog])
        · exact .inl ⟨u, by simpa [hholds, hut] using hu⟩
    | pushBack i job₀ hfrom hempty hholds hnext hlog =>
        exact .inl ⟨u, by simpa [hholds, Place.below] using hu⟩
    | pop i index job₀ hfrom hempty hholds hnext hlog => exact .inl ⟨u, by simpa [hholds] using hu⟩
    | process job₀ hcurrent hholds hnext hlog => exact .inl ⟨u, by simpa [hholds] using hu⟩
    | destruct job₀ hcurrent hholds hnext hlog => exact .inl ⟨u, by simpa [hholds] using hu⟩

theorem dispatchInvariant_reachable
    (hs : ((workerPool cfg maxJobs reserveSlots).guarded RoomAtDispatch).Reachable s) :
    DispatchInvariant s := by
  refine System.reachable_induction (I := DispatchInvariant) ?_ ?_ hs
  · rintro s rfl
    have hinit : (workerPool cfg maxJobs reserveSlots).Reachable _ := .init rfl
    exact ⟨jobsOwned_reachable hinit, fun t ↦ trivial, by simp [poolInit]⟩
  · rintro s t s' ih ⟨hroom, h⟩
    exact ⟨ih.owned.step h, h.dispatches ih.owned ih.threads hroom,
      ih.kept_step (h.change ih.owned.fits)⟩

/-! ## A page with one link -/

/-- A page with one link. -/
def onePage : List UInt8 := text "href=\"/x\""

theorem scan_onePage (l : List UInt8) :
    scanHref ((onePage ++ 0 :: l).length + 1) (onePage ++ 0 :: l)
      (strchr (onePage ++ 0 :: l) 0 104) = .ok (.link 6 8) := by
  have hpage : cstr (onePage ++ 0 :: l) 0 = onePage := cstr_append_nul (by decide) l
  have hfound : strchr (onePage ++ 0 :: l) 0 104 = some 0 :=
    strchr_of_append_cons (l := []) (r := onePage.tail) (by decide) hpage (by decide)
  have hvalue : cstr (onePage ++ 0 :: l) (0 + 6) = text "/x" ++ [34] :=
    cstr_add_of_append (l := text "href=\"") hpage
  have hquote : strchr (onePage ++ 0 :: l) (0 + 6) 34 = some 8 :=
    strchr_of_append_cons (by decide) hvalue (by decide)
  rw [hfound, scanHref, hpage, if_pos (by decide), hquote]

/-- The local buffer of `find_href`, before it is written, all zeros. -/
def emptyBuffer : { bytes : List UInt8 // bytes.length = jobRequestBufferSize + 1 } :=
  ⟨List.replicate (jobRequestBufferSize + 1) 0, List.length_replicate ..⟩

/-- A call that is no push. -/
def Op.NoPush (op : Op) : Prop := ∀ job, op ≠ .jobStackPush job

theorem findHref_onePage (fuel : ℕ) (file : FileHandle) :
    (findHref (fuel + 1) file).Leads Op.NoPush (.ret (.success (text "/x"))) := by
  have hbuffer : emptyBuffer.val.drop onePage.length = 0 :: List.replicate 4087 0 :=
    List.drop_replicate
  have hlink : ((onePage ++ 0 :: List.replicate 4087 0).drop 6).take (8 - 6) = text "/x" := by
    rw [List.drop_append_of_le_length (by decide), List.take_append_of_le_length (by decide)]
    rfl
  rw [findHref, indeterminate_bind]
  refine .call nofun emptyBuffer ?_
  rw [findHrefLoop, fread_bind]
  refine .call nofun ⟨onePage, by decide⟩ ?_
  simp only [hbuffer, scan_onePage, Prog.lift_ok, Prog.ret_bind, hlink, fseek_bind]
  rw [if_neg (by decide), if_neg (by decide)]
  exact .call nofun () (.here _)

/-- Up to the push of the first link. -/
theorem dispatchPrefetchJobs_onePage (fuel : ℕ) (file : FileHandle) (hostname : List UInt8) :
    (dispatchPrefetchJobs (fuel + 2) (some file) hostname).Leads Op.NoPush
      (.call (.jobStackPush (prefetchJob hostname (text "/x")))
        fun _ ↦ dispatchLoop (fuel + 1) file hostname) := by
  rw [dispatchPrefetchJobs, nonNullFile, Prog.ret_bind, fseek_bind]
  refine .call nofun () ?_
  rw [dispatchLoop]
  refine ((findHref_onePage fuel file).bind _).trans ?_
  have hslash : matchesCommand (text "/x") "http://" ∨ matchesCommand (text "/x") "/" := by decide
  simp only [Prog.ret_bind, if_pos hslash, jobStackPushJob_bind]
  exact .here _

/-- Up to the end of the file. -/
theorem dispatchLoop_ended (fuel : ℕ) (file : FileHandle) (hostname : List UInt8) :
    (dispatchLoop (fuel + 2) file hostname).Leads Op.NoPush (.ret ()) := by
  have hend : (findHref (fuel + 1) file).Leads Op.NoPush (.ret .finished) :=
    .call nofun emptyBuffer (.call nofun ⟨[], Nat.zero_le _⟩ (.here _))
  rw [dispatchLoop]
  exact hend.bind _

/-- What a thread goes on with after the operation it is in. -/
def PoolPc.rest : PoolPc ι → Option (Status → Processing)
  | .inside _ _ rest => rest
  | _ => none

omit [DecidableEq ι] in
theorem RoomAtDispatch.of_rest (h : (s.threads t).pc.rest = none) : RoomAtDispatch s t := by
  intro i job k hpc
  simp [hpc, PoolPc.rest] at h

omit [DecidableEq ι] in
theorem RoomAtDispatch.of_inside {i : ι} {pc : StackPc ℕ} {rest : Option (Status → Processing)}
    (hpc : (s.threads t).pc = .inside i pc rest)
    (hroom : ∀ job k, pc = .body (.push job) → rest = some k →
      (s.jobStacks i).stack.finished = false ∧
        (s.jobStacks i).stack.top < (s.jobStacks i).stack.maxJobCount) : RoomAtDispatch s t := by
  intro i' job k hpc'
  rw [hpc] at hpc'
  obtain ⟨rfl, hbody, hrest⟩ := PoolPc.inside.inj hpc'
  exact hroom job k hbody hrest

/-- A thread goes along its code through steps of its own. -/
theorem PoolState.leads {p p' : Processing} (h : p.Leads Op.NoPush p') {R : PoolState ι → Prop}
    (hstep : ∀ s s', R s → (∃ code, (s.threads t).pc = .working code) → PoolStep cfg t s s' → R s')
    (hs : R s) (hpc : (s.threads t).pc = .working p) : R (s.setPc t (.working p')) := by
  induction h generalizing s with
  | here p =>
      have hsame : s.setPc t (.working p) = s := by
        rw [PoolState.setPc, ← hpc]
        simp [PoolState.setThread]
      rwa [hsame]
  | @call op k p hop r h ih =>
      have hnext := hstep _ _ hs ⟨_, hpc⟩ (.call hpc hop r)
      have hlast := ih hnext (by simp [PoolState.setPc, PoolState.setThread])
      have hsame : (s.setPc t (.working (k r))).setPc t (.working p) = s.setPc t (.working p) := by
        simp [PoolState.setPc, PoolState.setThread]
      rwa [hsame] at hlast

/-- `process_job` that scans the file it has open for links. -/
def Scans (job : Job) (code : Processing) : Prop :=
  code = dispatchPrefetchJobs 3 (some 0) (text "a") >>= fun _ ↦ .ret (.terminate, job)

/-- The main thread and one worker on stacks of one slot. -/
def scanningPool : System (PoolState ServerStack) ℕ :=
  workerPool (serverConfig (fun t ↦ if t = 0 then .main else .worker .client) Scans) (fun _ ↦ 1)
    fun _ ↦ 1

/-- What is left of the scan once the first link is pushed. -/
def scanRest : Processing :=
  dispatchLoop 2 0 (text "a") >>= fun _ ↦ .ret (.terminate, jobConstruct 5)

/-- The worker has constructed a job for the link it has found and is about to push it. -/
def aboutToPush (s : PoolState ServerStack) : PoolState ServerStack where
  jobStacks := Function.update s.jobStacks .prefetch ⟨jobStackConstruct 1 1, none, fun _ ↦ ∅⟩
  threads := Function.update (Function.update s.threads 0 ⟨.idle, none, none⟩) 1
    ⟨.inside .prefetch (.lock (.push 1)) (some fun _ ↦ scanRest), some 0, some 1⟩
  jobs := s.jobs
  next := s.next
  log := [.accepted 0, .pushed 0, .popped 0, .processed 0, .dispatched 1]

theorem scanning_run :
    ∃ s : PoolState ServerStack,
      (scanningPool.guarded RoomAtDispatch).Reachable (aboutToPush s) := by
  have hinit : (scanningPool.guarded RoomAtDispatch).Reachable _ := .init rfl
  have haccept := hinit.step ⟨.of_rest rfl, .accept (t := 0) 5 rfl rfl⟩
  have hlock := haccept.step ⟨.of_rest rfl, .inside (t := 0) rfl (.lock rfl)⟩
  have hpush := hlock.step ⟨.of_rest rfl, .inside (t := 0) rfl
    (.leave rfl (.signal ∅ (Finset.empty_subset _) fun h ↦ h.ne_empty.symm))⟩
  have hunlock := hpush.step ⟨.of_rest rfl, .inside (t := 0) rfl .unlock⟩
  have haccepted := hunlock.step ⟨.of_rest rfl, .accepted (t := 0) rfl nofun⟩
  have hpoll := haccepted.step ⟨.of_rest rfl, .poll (t := 1) (i := .client) rfl rfl⟩
  have hlock' := hpoll.step ⟨.of_rest rfl, .inside (t := 1) rfl (.lock rfl)⟩
  have hpop := hlock'.step ⟨.of_rest rfl, .inside (t := 1) rfl
    (.leave rfl (.signal ∅ (Finset.empty_subset _) fun h ↦ h.ne_empty.symm))⟩
  have hunlock' := hpop.step ⟨.of_rest rfl, .inside (t := 1) rfl .unlock⟩
  have hprocess := hunlock'.step ⟨.of_rest rfl, .process (t := 1) rfl rfl⟩
  have hfound := PoolState.leads (t := 1) ((dispatchPrefetchJobs_onePage 1 0 (text "a")).bind _)
    (fun s s' hs ⟨code, hpc⟩ h ↦ hs.step ⟨.of_rest (by rw [hpc]; rfl), h⟩) hprocess rfl
  have hdispatch := hfound.step ⟨.of_rest rfl, .dispatch (t := 1) rfl⟩
  have hform : ∀ s : PoolState ServerStack, (scanningPool.guarded RoomAtDispatch).Reachable s →
      s.jobStacks .prefetch = ⟨jobStackConstruct 1 1, none, fun _ ↦ ∅⟩ →
        s.threads 0 = ⟨.idle, none, none⟩ →
          s.threads 1 =
            ⟨.inside .prefetch (.lock (.push 1)) (some fun _ ↦ scanRest), some 0, some 1⟩ →
              s.log = [.accepted 0, .pushed 0, .popped 0, .processed 0, .dispatched 1] →
                (scanningPool.guarded RoomAtDispatch).Reachable (aboutToPush s) := by
    rintro ⟨jobStacks, threads, jobs, next, log⟩ hs hstack hmain hworker hlog
    simp only at hstack hmain hworker hlog
    simpa [aboutToPush, ← hstack, ← hmain, ← hworker, ← hlog] using hs
  exact ⟨_, hform _ hdispatch rfl rfl rfl rfl⟩

theorem forget_not_held (hs : JobsOwned s) (hfresh : s.holds (.fresh t) = some job)
    (pc : PoolPc ι) (u : ℕ) : (s.forget t pc).holds (.fresh u) ≠ some job := by
  have hholds : (s.forget t pc).holds = Function.update s.holds (.fresh t) none :=
    holds_of_fresh rfl rfl rfl
  intro hu
  by_cases hut : u = t
  · simp [hholds, hut] at hu
  · have hbefore : s.holds (.fresh u) = some job := by simpa [hholds, hut] using hu
    exact hut (by simpa using hs.exclusive hbefore hfresh)

/-! ## What is kept -/

/-- A dispatched job whose push finds room is pushed once or destructed. -/
theorem dispatched_jobs_kept {role : ℕ → Role ServerStack} {process : Job → Processing → Prop}
    {maxJobs reserveSlots : ServerStack → ℤ} {s : PoolState ServerStack}
    (hs : ((workerPool (serverConfig role process) maxJobs reserveSlots).guarded
      RoomAtDispatch).Reachable s) : DispatchedKept s := by
  intro job hmem hfresh
  rcases (dispatchInvariant_reachable hs).kept job hmem with ⟨t, ht⟩ | hpushed
  · exact absurd ht (hfresh t)
  · have honce := (pushedOnce_reachable hs.of_guarded).once job
    have hpos := List.count_pos_iff.mpr hpushed
    exact .inl (by omega)

theorem dispatched_jobs_kept_onePage : ∃ s : PoolState ServerStack, s.log =
    [.accepted 0, .pushed 0, .popped 0, .processed 0, .dispatched 1, .pushed 1] ∧
      DispatchedKept s := by
  obtain ⟨s, hs⟩ := scanning_run
  have hlock := hs.step ⟨.of_inside rfl (by simp), .inside (t := 1) rfl (.lock rfl)⟩
  have hpush := hlock.step
    ⟨.of_inside (i := .prefetch) rfl fun _ _ _ _ ↦ ⟨rfl, Int.one_pos⟩, .inside (t := 1) rfl
      (.leave rfl (.signal ∅ (Finset.empty_subset _) fun h ↦ h.ne_empty.symm))⟩
  exact ⟨_, rfl, dispatched_jobs_kept hpush⟩

/-- With the finish signal in between, the push gives up and the job is lost. -/
theorem not_always_dispatchedKept : ∃ s : PoolState ServerStack, scanningPool.Reachable s ∧
    (s.threads 1).pc = .working (.ret (.terminate, jobConstruct 5)) ∧ ¬DispatchedKept s := by
  obtain ⟨s, hs⟩ := scanning_run
  have hsignal := hs.of_guarded.step (.signal (t := 0) .prefetch rfl rfl)
  have hlock := hsignal.step (.inside (t := 0) rfl (.lock rfl))
  have hfinish := hlock.step (.inside (t := 0) rfl (.leave rfl .broadcast))
  have hunlock := hfinish.step (.inside (t := 0) rfl .unlock)
  have hlock' := hunlock.step (.inside (t := 1) rfl (.lock rfl))
  have hrefused := hlock'.step (.inside (t := 1) rfl (.keep rfl))
  have hback := hrefused.step (.dispatched (t := 1) rfl)
  have hend := PoolState.leads (t := 1) ((dispatchLoop_ended 0 0 (text "a")).bind _)
    (fun s s' hs _ h ↦ hs.step h) hback rfl
  have hlost : ∀ s : PoolState ServerStack,
      s.log = [.accepted 0, .pushed 0, .popped 0, .processed 0, .dispatched 1] →
        (∀ t, s.holds (.fresh t) ≠ some 1) → ¬DispatchedKept s := by
    intro s hlog hfresh h
    have hkept := h 1 (by simp [hlog]) hfresh
    simp [Kept, hlog] at hkept
  refine ⟨_, hend, rfl, hlost _ rfl fun u ↦ ?_⟩
  rw [holds_setPc]
  exact forget_not_held (jobsOwned_reachable hrefused) rfl _ u

end HttpProxy
