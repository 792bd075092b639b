import HttpProxy.ServerStacks
import HttpProxy.ShutdownDrains
import Mathlib.Algebra.Order.BigOperators.Group.Finset
import Mathlib.Data.Finset.Option

/-!
# The connections of the server

What `main` accepts stays in its own hands, on the clients' stack and in the hands of the
client workers until it is destructed.  There is only so much room there, so the number of
connections that are open at once is bounded.
-/

namespace HttpProxy

open Transition Ownership

variable {table : BlockTable} {s s' : ServerState} {p p' : PoolState ServerStack} {t job : ℕ}

/-! ## Nothing that was accepted is lost -/

/-- `main` still has the job, or it is accounted for by the workers. -/
def InService (p : PoolState ServerStack) (job : ℕ) : Prop :=
  Accounted p job ∨ p.holds (.fresh mainThread) = some job

/-- What is newly accepted is the next job, in the hands of its thread. -/
theorem PoolChange.accepted (h : PoolChange t p p') (hmem : .accepted job ∈ p'.log) :
    .accepted job ∈ p.log ∨ p'.holds (.fresh t) = some job ∧ job = p.next := by
  cases h with
  | construct event hevent hempty hholds hnext hlog =>
      rw [hlog, List.mem_append] at hmem
      refine hmem.imp_right fun hnew ↦ ?_
      rcases hevent with rfl | rfl
      · obtain rfl : job = p.next := by simpa using hnew
        simp [hholds]
      · simp at hnew
  | keep _ _ hlog | forget _ _ _ _ _ _ _ _ hlog => exact .inl (hlog ▸ hmem)
  | push _ _ _ _ _ _ _ hlog | pushBack _ _ _ _ _ _ hlog | pop _ _ _ _ _ _ _ hlog
  | process _ _ _ _ hlog | destruct _ _ _ _ hlog => exact .inl (by simpa [hlog] using hmem)

/-- A push of `main` that has returned was not refused. -/
theorem MainLine.push_returned (hs : MainLine s) {i : ServerStack} {status : Status}
    {out : Option ℕ} {rest : Option (Status → Processing)}
    (hpc : (s.pool.threads mainThread).pc = .inside i (.returned (.push job) status out) rest) :
    status ≠ .finished ∧ rest = none := by
  have hline := hs.at_line
  rw [hpc] at hline
  cases hmain : s.mainPc with
  | pushing =>
      rw [hmain] at hline
      obtain ⟨pc, _, hinside, -, hrefused⟩ := hline.resolve_left nofun
      obtain ⟨-, rfl, rfl⟩ := PoolPc.inside.inj hinside
      exact ⟨hrefused, rfl⟩
  | signalled i =>
      rw [hmain] at hline
      obtain ⟨pc, hinside, hcalled⟩ := hline.resolve_left nofun
      obtain ⟨-, rfl, -⟩ := PoolPc.inside.inj hinside
      cases hcalled
  | _ =>
      rw [hmain] at hline
      cases hline

/-- `main` holds on to the job it has accepted until a push has succeeded. -/
theorem MainLine.fresh_inService (hs : MainLine s) (hfits : PoolFits s.pool)
    (h : PoolStep (serverPool table) mainThread s.pool p)
    (hfresh : s.pool.holds (.fresh mainThread) = some job) : InService p job := by
  have hkept : p.holds (.fresh mainThread) = s.pool.holds (.fresh mainThread) → InService p job :=
    fun hsame ↦ .inr (hsame.trans hfresh)
  cases h.change hfits with
  | construct _ _ hempty => simp [hempty] at hfresh
  | forget i job₀ status out rest hpc hholds =>
      obtain ⟨hfinished, rfl⟩ := hs.push_returned hpc
      have hhands : (s.pool.threads mainThread).fresh =
          if status = .success then none else some job₀ := (hfits.at hpc).1
      have hstatus : status = .fail := by
        cases status with
        | fail => rfl
        | finished => exact absurd rfl hfinished
        | success =>
            rw [if_pos rfl] at hhands
            rw [PoolState.holds, hhands] at hfresh
            cases hfresh
      -- a push that failed is made again
      rcases h.of_inside hpc with ⟨pc', shared, hstep, -⟩ | ⟨op, _, _, hreturned, hend⟩
      · cases hstep
      · obtain ⟨rfl, rfl, rfl⟩ := StackPc.returned.inj hreturned
        rcases hend with hpop | ⟨-, hnot⟩ | ⟨_, -, rfl⟩
        · cases hpop
        · exact absurd hstatus (hnot _ rfl)
        · exact hkept (by rw [holds_setPc])
  | push i index job' hfrom hempty hholds =>
      obtain rfl : job' = job := by simpa [hfrom] using hfresh
      exact .inl (.inr (.inl ⟨i, index, by rw [hholds, Function.update_self]⟩))
  | keep hholds => exact hkept (by rw [hholds])
  | pushBack i job' hfrom hempty hholds => exact hkept (by simp [hholds, Place.below])
  | pop i index job' hfrom hempty hholds => exact hkept (by simp [hholds])
  | process job' hcurrent hholds => exact hkept (by rw [hholds])
  | destruct job' hcurrent hholds => exact hkept (by simp [hholds])

theorem InService.step (hs : InService s.pool job) (hline : MainLine s) (hfits : PoolFits s.pool)
    (h : PoolStep (serverPool table) t s.pool p) : InService p job := by
  rcases hs with haccounted | hfresh
  · exact .inl ((h.change hfits).accounted haccounted)
  · by_cases ht : t = mainThread
    · subst ht
      exact hline.fresh_inService hfits h hfresh
    · have hsame : p.holds (.fresh mainThread) = s.pool.holds (.fresh mainThread) := by
        rw [PoolState.holds, PoolState.holds, h.threads_ne (Ne.symm ht)]
      exact .inr (hsame.trans hfresh)

/-- Only `main` accepts. -/
theorem ServerState.newly_accepted (hs : (serverSystem table).Reachable s) (ht : t ≤ mainThread)
    (h : PoolStep (serverPool table) t s.pool p) (hjob : .accepted job ∈ p.log) :
    .accepted job ∈ s.pool.log ∨
      p.holds (.fresh mainThread) = some job ∧ job = s.pool.next ∧ t = mainThread := by
  have hpool := pool_reachable hs
  have howned := jobsOwned_reachable hpool
  rcases (h.change howned.fits).accepted hjob with hold | ⟨hfresh, hnext⟩
  · exact .inl hold
  · have hrole := (h.constructs (plays_reachable hpool t)
      ((prefetchApart_reachable hpool).threads t)).1 hjob
    rcases hrole with hold | hmain
    · exact .inl hold
    · obtain rfl := eq_mainThread ht hmain
      exact .inr ⟨hfresh, hnext, rfl⟩

theorem inService_reachable (hs : (serverSystem table).Reachable s) :
    ∀ job, .accepted job ∈ s.pool.log → InService s.pool job := by
  induction hs with
  | init h =>
      rw [h.1]
      simp [poolInit]
  | @step s s' l hs h ih =>
      intro job hjob
      have hline := mainLine_reachable hs
      rcases h.pool_step hline with hsame | ⟨t, ht, hstep⟩
      · rw [hsame] at hjob ⊢
        exact ih job hjob
      · rcases ServerState.newly_accepted hs ht hstep hjob with hold | ⟨hfresh, -, -⟩
        · exact (ih job hold).step hline (jobsOwned_reachable (pool_reachable hs)).fits hstep
        · exact .inr hfresh

/-! ## The clients' side -/

/-- A job that was accepted is only ever where clients' jobs belong. -/
def AcceptedApart (p : PoolState ServerStack) : Prop :=
  ∀ place job, p.holds place = some job → .accepted job ∈ p.log → ¬PrefetchSide serverRole place

theorem acceptedApart_reachable (hs : (serverSystem table).Reachable s) :
    AcceptedApart s.pool := by
  induction hs with
  | init h =>
      rw [h.1]
      intro place job _ hjob
      simp [poolInit] at hjob
  | @step s s' l hs h ih =>
      rcases h.pool_step (mainLine_reachable hs) with hsame | ⟨t, ht, hstep⟩
      · rwa [hsame]
      · intro place job hplace hjob
        have hpool := pool_reachable hs
        have howned := jobsOwned_reachable hpool
        have hside := (hstep.change howned.fits).side (plays_reachable hpool t)
          ((prefetchApart_reachable hpool).threads t) hplace
        rcases ServerState.newly_accepted hs ht hstep hjob with hold | ⟨hfresh, -, -⟩
        · rcases hside with ⟨q, hq, hiff⟩ | ⟨hnext, -, -⟩
          · exact fun hprefetch ↦ ih q job hq hold (hiff.mpr hprefetch)
          · exact absurd (howned.logged _ hold) (by simp [JobEvent.job, hnext])
        · have hafter := (howned.step hstep).exclusive hplace hfresh
          rw [hafter]
          exact fun hworker ↦ hworker serverRole_main

/-- The places where an accepted job can be. -/
def clientPlaces (p : PoolState ServerStack) : Finset (Place ServerStack) :=
  (Finset.range (p.jobStacks .client).stack.top.toNat).image (fun k : ℕ ↦ .slot .client k) ∪
    (holders (serverConsumers .client) fun t ↦ (p.threads t).current).image .current ∪
      {.fresh mainThread}

theorem mem_clientPlaces (hs : (serverSystem table).Reachable s) {place : Place ServerStack}
    (hplace : s.pool.holds place = some job) (hside : ¬PrefetchSide serverRole place) :
    place ∈ clientPlaces s.pool := by
  have hfits := (jobsOwned_reachable (pool_reachable hs)).fits
  have hplays := plays_reachable (pool_reachable hs)
  rw [clientPlaces, Finset.mem_union, Finset.mem_union]
  cases place with
  | slot i index =>
      have hclient : i = .client := by
        cases i with
        | client => rfl
        | prefetch => exact absurd rfl hside
      subst hclient
      have hslot : (s.pool.jobStacks .client).stack.slot index = some job := hplace
      rw [JobStack.slot] at hslot
      split_ifs at hslot with hindex
      refine .inl (.inl (Finset.mem_image.mpr ⟨index.toNat, ?_, ?_⟩))
      · rw [Finset.mem_range]
        omega
      · rw [Int.toNat_of_nonneg hindex.1]
  | current t =>
      refine .inl (.inr (Finset.mem_image_of_mem _ ?_))
      have hcurrent : (s.pool.threads t).current = some job := hplace
      refine Finset.mem_filter.mpr ⟨mem_serverConsumers.mpr ?_, by simp [hcurrent]⟩
      cases hrole : serverRole t with
      | main =>
          have hmain := hplays t
          rw [show (serverPool table).role t = .main from hrole] at hmain
          rw [MainPlays.current_eq_none hmain (hfits.threads t)] at hcurrent
          cases hcurrent
      | worker source =>
          cases source with
          | client => rfl
          | prefetch => exact absurd hrole hside
  | fresh t =>
      have hrole : serverRole t = .main := not_not.mp hside
      refine .inr (Finset.mem_singleton.mpr (congrArg _ ?_))
      by_contra hne
      have hidle := (mainLine_reachable hs).idle_of_main hrole hne
      have hfresh : (s.pool.threads t).fresh = some job := hplace
      rw [(hfits.at hidle).2] at hfresh
      cases hfresh

/-! ## How many connections are open -/

/-- The connections that have been accepted and not yet been closed. -/
def openConnections (p : PoolState ServerStack) : Finset ℕ :=
  (Finset.range p.next).filter fun job ↦ .accepted job ∈ p.log ∧ .destructed job ∉ p.log

theorem InService.held (hs : InService p job) (hopen : .destructed job ∉ p.log) :
    ∃ place, p.holds place = some job := by
  rcases hs with (hgone | ⟨i, index, hslot⟩ | ⟨t, ht⟩) | hfresh
  · exact absurd hgone hopen
  · exact ⟨_, hslot⟩
  · exact ⟨_, ht⟩
  · exact ⟨_, hfresh⟩

/-- The job is somewhere, and only where clients' jobs belong. -/
def HeldForClients (p : PoolState ServerStack) (job : ℕ) : Prop :=
  (∃ place, p.holds place = some job) ∧
    ∀ place, p.holds place = some job → place ∈ clientPlaces p

theorem heldForClients_of_open (hs : (serverSystem table).Reachable s)
    (hjob : job ∈ openConnections s.pool) : HeldForClients s.pool job := by
  obtain ⟨-, haccepted, hopen⟩ := Finset.mem_filter.mp hjob
  refine ⟨(inService_reachable hs job haccepted).held hopen, fun place hplace ↦ ?_⟩
  exact mem_clientPlaces hs hplace (acceptedApart_reachable hs place job hplace haccepted)

theorem openConnections_subset (hs : (serverSystem table).Reachable s) :
    openConnections s.pool ⊆ (clientPlaces s.pool).biUnion fun place ↦
      (s.pool.holds place).toFinset := by
  intro job hjob
  obtain ⟨⟨place, hplace⟩, hclients⟩ := heldForClients_of_open hs hjob
  exact Finset.mem_biUnion.mpr ⟨place, hclients place hplace, Option.mem_toFinset.mpr hplace⟩

theorem card_clientPlaces (p : PoolState ServerStack) :
    (clientPlaces p).card ≤ (p.jobStacks .client).stack.top.toNat +
      (holders (serverConsumers .client) fun t ↦ (p.threads t).current).card + 1 := by
  refine (Finset.card_union_le _ _).trans (Nat.add_le_add ?_ (by rw [Finset.card_singleton]))
  refine (Finset.card_union_le _ _).trans (Nat.add_le_add ?_ Finset.card_image_le)
  exact Finset.card_image_le.trans (by rw [Finset.card_range])

theorem card_openConnections_le (hs : (serverSystem table).Reachable s) :
    (openConnections s.pool).card ≤ clientJobStackSize + clientWorkerThreads + 1 := by
  have hone : ∀ place ∈ clientPlaces s.pool, (s.pool.holds place).toFinset.card ≤ 1 := by
    intro place _
    cases s.pool.holds place <;> simp
  have hkept := stackKept_reachable (i := .client) hs
  have hnonneg := hkept.nonneg
  have hroom := hkept.room
  have hplaces := card_clientPlaces s.pool
  simp only [serverMaxJobs, serverReserveSlots] at hroom
  calc (openConnections s.pool).card
      ≤ ((clientPlaces s.pool).biUnion fun place ↦ (s.pool.holds place).toFinset).card :=
        Finset.card_le_card (openConnections_subset hs)
    _ ≤ (clientPlaces s.pool).card * 1 := Finset.card_biUnion_le_card_mul _ _ _ hone
    _ ≤ clientJobStackSize + clientWorkerThreads + 1 := by omega

/-- However many clients connect, the server never has more connections open at once than its
stack of clients takes, with one more for each client worker and one for `main`; none of them is
lost, and none gets among the prefetch jobs. -/
theorem server_bounds_connections (hs : (serverSystem table).Reachable s) :
    (openConnections s.pool).card ≤ clientJobStackSize + clientWorkerThreads + 1 ∧
      ∀ job ∈ openConnections s.pool, HeldForClients s.pool job :=
  ⟨card_openConnections_le hs, fun _ ↦ heldForClients_of_open hs⟩

theorem server_bounds_connections_firstClient :
    ∃ s : ServerState, s.pool.log = [.accepted 0] ∧ HeldForClients s.pool 0 ∧
      (openConnections s.pool).card ≤ clientJobStackSize + clientWorkerThreads + 1 := by
  have hwaiting := (listening_reachable []).step (.goOn rfl rfl)
  have haccepted := hwaiting.step (.accept 5 rfl)
  obtain ⟨hbound, hheld⟩ := server_bounds_connections haccepted
  have hopen : JobEvent.destructed 0 ∉ [JobEvent.accepted 0] := by simp
  exact ⟨_, rfl, hheld 0 (Finset.mem_filter.mpr
    ⟨Finset.mem_range.mpr Nat.one_pos, List.mem_singleton_self _, hopen⟩), hbound⟩

end HttpProxy
