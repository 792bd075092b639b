import HttpProxy.ClientDeadline
import HttpProxy.RequestStream

/-!
# How long a slow client can stay

A client whose first line is not complete is waited for, and whatever arrives of it writes its
deadline anew.  The buffer bounds how often that happens, and a client that sends its bytes one by
one, each at the last moment, and the last two of the buffer together, stays as long as that.
-/

namespace HttpProxy

open CString Interaction Protocol Transition

variable {fuel now : ℕ} {locals : Locals} {table : BlockTable} {job left : Job} {tr : Trace}
  {s s' : ClientWait} {call : JobCall} {arrived : List (ℕ × List UInt8)} {sent : List (List UInt8)}

/-- A call on a client's job, at a time whose deadline is an `unsigned int`. -/
structure ClockFits (s : ClientWait) (call : JobCall) : Prop where
  socket : s.job.clientSocketFd ≠ -1
  fits : call.now + keepAliveTimeout < 4294967296

/-- The time of a call in which data arrived, and the data. -/
def arrivalEvents (_ : ClientWait) (call : JobCall) (_ : ClientWait) : List (ℕ × List UInt8) :=
  if call.trace.any deliversData then [(call.now, streamOf call.trace)] else []

/-- The calls on a client's job with the log of its data and of when they arrived. -/
def slowClient : System (ClientWait × List (ℕ × List UInt8)) JobCall :=
  (clientCalls.guarded ClockFits).logged arrivalEvents

/-- All that a call does to the buffer and to the deadline of a client's job that is to wait. -/
inductive Drips (now : ℕ) (job : Job) (tr : Trace) (left : Job) : Prop
  | silent (htr : tr.any deliversData = false) (hleft : left = job)
  | data (htr : tr.any deliversData = true) (hmore : job.requestTail < left.requestTail)
      (hfits : left.requestTail ≤ jobRequestBufferSize)
      (hroom : left.requestTail ≠ jobRequestBufferSize - 1)
      (hdeadline : left.expirationTime = now + keepAliveTimeout)

theorem unsignedTime_add (h : now + keepAliveTimeout < 4294967296) :
    (unsignedTime now + keepAliveTimeout) % 4294967296 = now + keepAliveTimeout := by
  rw [unsignedTime, Nat.mod_add_mod, Nat.mod_eq_of_lt h]

theorem run_readAndParseJob_drips (hfd : job.clientSocketFd ≠ -1)
    (hnow : now + keepAliveTimeout < 4294967296)
    (h : (atTime now).Run () (readAndParseJob fuel locals table job) tr ()
      (.ok (.enqueue, left))) : Drips now job tr left := by
  generalize hout : Except.ok (JobStatus.enqueue, left) = outcome at h
  cases run_readAndParseJob_cases h with
  | prefetch hnone => exact absurd hnone hfd
  | noData =>
      cases hout
      exact .silent rfl rfl
  | closed => cases hout
  | data _ bytes clock hne hfits hbytes htime hrun =>
      subst hout
      obtain rfl : clock = now := htime
      have hpos : 0 < bytes.length := List.length_pos_iff.mpr hne
      generalize hwaits : Except.ok (JobStatus.enqueue, left) = outcome at hrun
      cases run_parseJob_cases hrun with
      | faults => cases hwaits
      | waits request parsed hparse htail =>
          cases hwaits
          refine .data (by simp [deliversData, hne]) ?_ ?_ htail (unsignedTime_add hnow)
          · simp only [receiveRequest]
            omega
          · simp only [receiveRequest]
            omega
      | responds parsed responded => cases responded <;> cases hwaits

/-- A job that waits on was not expired. -/
theorem run_processJob_drips (hfd : job.clientSocketFd ≠ -1)
    (hnow : now + keepAliveTimeout < 4294967296)
    (h : (atTime now).Run () (processJob fuel locals table job) tr () (.ok (.enqueue, left))) :
    Drips now job tr left ∧ (job.expirationTime ≠ 0 → now ≤ job.expirationTime) := by
  rcases run_processJob_cases h with ⟨hzero, hread⟩ | ⟨-, clock, tr, hclock, rfl, hcall⟩
  · exact ⟨run_readAndParseJob_drips hfd hnow hread, fun hset ↦ absurd hzero hset⟩
  · obtain rfl : clock = now := hclock
    rcases hcall with ⟨-, -, hout⟩ | ⟨hlive, hread⟩
    · cases hout
    · rw [unsignedTime, Nat.mod_eq_of_lt (by omega)] at hlive
      refine ⟨?_, fun _ ↦ hlive⟩
      cases run_readAndParseJob_drips hfd hnow hread with
      | silent htr hleft => exact .silent (by simpa [deliversData] using htr) hleft
      | data htr hmore hfits hroom hdeadline =>
          exact .data (by simpa [deliversData] using htr) hmore hfits hroom hdeadline

/-! ## The buffer bounds the deadlines -/

/-- Each arrival took a byte of the buffer at least, and moved the deadline by
`KEEP_ALIVE_TIMEOUT` at most. -/
structure Dripped (p : ClientWait × List (ℕ × List UInt8)) : Prop where
  bytes : p.2.length ≤ p.1.job.requestTail
  fits : p.1.job.requestTail ≤ jobRequestBufferSize
  room : p.1.job.requestTail ≠ jobRequestBufferSize - 1
  arrivals : p.2.length < jobRequestBufferSize
  deadline : ∀ first rest, p.2 = first :: rest →
    p.1.job.expirationTime ≠ 0 ∧ p.1.clock ≤ p.1.job.expirationTime ∧
      p.1.job.expirationTime ≤ first.1 + p.2.length * keepAliveTimeout

theorem Dripped.step (hs : Dripped (s, arrived)) (hcall : ClockFits s call)
    (h : ClientStep s call s') : Dripped (s', arrived ++ arrivalEvents s call s') := by
  obtain ⟨hbytes, hfits, hroom, harrivals, hdeadline⟩ := hs
  simp only at hbytes hfits hroom harrivals hdeadline
  cases h with
  | @enqueue left fuel locals table hclock hrun =>
      obtain ⟨hdrips, hlive⟩ := run_processJob_drips hcall.socket hcall.fits hrun
      cases hdrips with
      | silent htr hleft =>
          subst hleft
          simp only [arrivalEvents, htr, Bool.false_eq_true, if_false, List.append_nil]
          refine ⟨hbytes, hfits, hroom, harrivals, fun first rest harrived ↦ ?_⟩
          obtain ⟨hset, -, hle⟩ := hdeadline first rest harrived
          exact ⟨hset, hlive hset, hle⟩
      | data htr hmore hfits' hroom' hleft =>
          simp only [arrivalEvents, htr, if_true]
          refine ⟨?_, hfits', hroom', ?_, fun first rest harrived ↦ ?_⟩
          · rw [List.length_append, List.length_singleton]
            exact Nat.succ_le_of_lt (Nat.lt_of_le_of_lt hbytes hmore)
          · simp only [List.length_append, List.length_singleton]
            omega
          · rw [List.length_append, List.length_singleton, Nat.add_mul, Nat.one_mul]
            have hnext : call.now + keepAliveTimeout ≤
                first.1 + arrived.length * keepAliveTimeout + keepAliveTimeout := by
              cases arrived with
              | nil =>
                  obtain ⟨rfl, -⟩ := List.cons.inj harrived
                  omega
              | cons first' rest' =>
                  obtain ⟨rfl, -⟩ := List.cons.inj harrived
                  obtain ⟨hset, -, hle⟩ := hdeadline first' rest' rfl
                  have hnow := hlive hset
                  omega
            simp only [hleft]
            exact ⟨by simp [keepAliveTimeout], Nat.le_add_right _ _, by omega⟩

theorem dripped_reachable {p : ClientWait × List (ℕ × List UInt8)} (hp : slowClient.Reachable p) :
    Dripped p := by
  induction hp with
  | @init p h =>
      obtain ⟨⟨fd, clock, hjob⟩, hlog⟩ := h
      have htail : p.1.job.requestTail = 0 := by
        rw [hjob]
        rfl
      refine ⟨by simp [hlog], by simp [htail], ?_, ?_, by simp [hlog]⟩
      · rw [htail]
        decide
      · rw [hlog]
        decide
  | @step p p' call hp h ih =>
      obtain ⟨s, arrived⟩ := p
      obtain ⟨s', arrived'⟩ := p'
      obtain ⟨⟨hcall, hstep⟩, hlog⟩ := h
      change arrived' = arrived ++ arrivalEvents s call s' at hlog
      subst hlog
      exact ih.step hcall hstep

/-! ## A client that stays as long as it can -/

/-- Data of which the first part arrives at this time and each other part at the deadline that the
one before it has set. -/
def atDeadlines (first : ℕ) (sent : List (List UInt8)) : List (ℕ × List UInt8) :=
  sent.mapIdx fun n bytes ↦ (first + n * keepAliveTimeout, bytes)

/-- The client has sent this without a line feed, from time 100 on and each part of it at the last
moment. -/
structure Slow (sent : List (List UInt8)) (p : ClientWait × List (ℕ × List UInt8)) : Prop where
  reachable : slowClient.Reachable p
  socket : p.1.job.clientSocketFd = 5
  holds : Holds p.1.job sent.flatten
  line : lf ∉ sent.flatten ∧ 0 ∉ sent.flatten
  deadline : p.1.job.expirationTime = 100 + sent.length * keepAliveTimeout
  clock : p.1.clock ≤ p.1.job.expirationTime
  arrivals : p.2 = atDeadlines 100 sent

theorem parseJob_waits_of_holds {held : List UInt8} (hholds : Holds job held)
    (hline : lf ∉ held ∧ 0 ∉ held) (hroom : held.length ≠ jobRequestBufferSize - 1) :
    parseJob fuel locals table job = .ret (.enqueue, job) := by
  refine parseJob_waits ?_ (hholds.requestTail ▸ hroom)
  rw [hholds.string hline.2]
  exact hline.1

/-- A call on a job at its deadline reads what has come. -/
theorem run_processJob_lastMoment {outcome : Except Fault (JobStatus × Job)}
    (hset : job.expirationTime ≠ 0) (hfits : job.expirationTime < 4294967296)
    (h : (atTime job.expirationTime).Run () (readAndParseJob fuel locals table job) tr ()
      outcome) :
    (atTime job.expirationTime).Run () (processJob fuel locals table job)
      (⟨.time, job.expirationTime⟩ :: tr) () outcome := by
  rw [processJob, if_neg hset, time_bind, run_call]
  refine ⟨job.expirationTime, tr, rfl, rfl, ?_⟩
  rwa [if_neg (by rw [unsignedTime, Nat.mod_eq_of_lt hfits]; omega)]

theorem run_readAndParseJob_data {bytes held : List UInt8} (hfd : job.clientSocketFd ≠ -1)
    (hholds : Holds job held) (hne : bytes ≠ [])
    (hfits : bytes.length ≤ jobRequestBufferSize - job.requestTail)
    (hline : lf ∉ held ++ bytes ∧ 0 ∉ held ++ bytes)
    (hroom : (held ++ bytes).length ≠ jobRequestBufferSize - 1) :
    (atTime now).Run () (readAndParseJob fuel locals table job)
      [⟨.recv (.client job.clientSocketFd) (jobRequestBufferSize - job.requestTail) true,
        .data bytes hfits⟩, ⟨.time, now⟩] ()
      (.ok (.enqueue, receiveRequest job bytes now)) := by
  rw [readAndParseJob, if_neg hfd]
  simp only [recv_bind, time_bind]
  refine run_call.mpr ⟨RecvResult.data bytes hfits, _, trivial, rfl, ?_⟩
  rw [if_neg (by simp [RecvResult.length]), if_neg (by simpa [RecvResult.length] using hne)]
  refine run_call.mpr ⟨now, _, rfl, rfl, ?_⟩
  simp only [RecvResult.bytes]
  rw [parseJob_waits_of_holds (hholds.receive hfits now) hline hroom]
  exact .ret _

theorem run_readAndParseJob_silent (hfd : job.clientSocketFd ≠ -1) :
    (atTime now).Run () (readAndParseJob fuel locals table job)
      [⟨.recv (.client job.clientSocketFd) (jobRequestBufferSize - job.requestTail) true, .error⟩]
      () (.ok (.enqueue, job)) := by
  rw [readAndParseJob, if_neg hfd, recv_bind]
  exact run_call.mpr ⟨RecvResult.error, [], trivial, rfl, .ret _⟩

theorem reachable_waiting (hs : slowClient.Reachable (s, arrived)) (hfd : s.job.clientSocketFd ≠ -1)
    (hfits : now + keepAliveTimeout < 4294967296) (hclock : s.clock ≤ now)
    (hrun : (atTime now).Run () (processJob fuel locals table s.job) tr ()
      (.ok (.enqueue, left))) :
    ∃ s', s'.job = left ∧ s'.clock = now ∧
      slowClient.Reachable
        (s', arrived ++ if tr.any deliversData then [(now, streamOf tr)] else []) := by
  let call : JobCall := ⟨now, tr⟩
  have hstep : ClientStep s call _ := .enqueue fuel locals table hclock hrun
  exact ⟨_, rfl, rfl, hs.log ⟨⟨hfd, hfits⟩, hstep⟩⟩

theorem Slow.clockFits {p : ClientWait × List (ℕ × List UInt8)} (hp : Slow sent p)
    (hsent : sent.length < jobRequestBufferSize) : p.1.job.clientSocketFd ≠ -1 ∧
      p.1.job.expirationTime + keepAliveTimeout < 4294967296 ∧ p.1.job.expirationTime ≠ 0 := by
  rw [hp.socket, hp.deadline]
  simp only [jobRequestBufferSize, keepAliveTimeout] at hsent ⊢
  exact ⟨by decide, by omega, by omega⟩

theorem Slow.arrive (hp : Slow sent (s, arrived)) (bytes : List UInt8)
    (hsent : sent.length < jobRequestBufferSize) (hne : bytes ≠ [])
    (hfits : sent.flatten.length + bytes.length ≤ jobRequestBufferSize)
    (hroom : (sent.flatten ++ bytes).length ≠ jobRequestBufferSize - 1)
    (hline : lf ∉ bytes ∧ 0 ∉ bytes) :
    ∃ s' arrived', Slow (sent ++ [bytes]) (s', arrived') := by
  obtain ⟨hfd, hrange, hset⟩ := hp.clockFits hsent
  obtain ⟨hreach, hsocket, hholds, hline', hdeadline, hclock, harrivals⟩ := hp
  simp only at hfd hrange hset hsocket hholds hdeadline hclock harrivals
  have hflatten : (sent ++ [bytes]).flatten = sent.flatten ++ bytes := by simp
  have hboth : lf ∉ sent.flatten ++ bytes ∧ 0 ∉ sent.flatten ++ bytes := by simp [hline, hline']
  have hfits' : bytes.length ≤ jobRequestBufferSize - s.job.requestTail := by
    rw [hholds.requestTail]
    omega
  have hrun : (atTime s.job.expirationTime).Run ()
      (processJob 0 ⟨false, .malformed, false, none⟩ [] s.job) _ ()
        (.ok (.enqueue, receiveRequest s.job bytes s.job.expirationTime)) :=
    run_processJob_lastMoment hset (by omega)
      (run_readAndParseJob_data hfd hholds hne hfits' hboth hroom)
  obtain ⟨s', hjob, hnow, hnext⟩ := reachable_waiting hreach hfd hrange hclock hrun
  have hleft : s'.job.expirationTime = s.job.expirationTime + keepAliveTimeout :=
    hjob ▸ unsignedTime_add hrange
  rw [if_pos (by simp [deliversData, hne])] at hnext
  refine ⟨s', _, hnext, hjob ▸ hsocket, ?_, hflatten ▸ hboth, ?_, ?_, ?_⟩
  · simp only [hjob, hflatten]
    exact hholds.receive hfits' _
  · rw [List.length_append, List.length_singleton]
    simp only [hleft, hdeadline, Nat.add_mul, Nat.one_mul, Nat.add_assoc]
  · simp only [hleft, hnow]
    omega
  · simp [atDeadlines, List.mapIdx_append, harrivals, hdeadline, streamOf, fromClient,
      RecvResult.bytes]

/-- The first byte comes at time 100. -/
theorem slow_start : ∃ s arrived, Slow [[97]] (s, arrived) := by
  have hreceive : Holds (receiveRequest (jobConstruct 5) [97] 100) [97] :=
    (holds_jobConstruct 5).receive (by decide) 100
  have hinit : slowClient.Reachable (⟨jobConstruct 5, 7, none, none⟩, []) :=
    .init ⟨⟨5, 7, rfl⟩, rfl⟩
  have hrun : (atTime 100).Run ()
      (processJob 0 ⟨false, .malformed, false, none⟩ [] (jobConstruct 5))
      [⟨.recv (.client 5) (jobRequestBufferSize - 0) true, .data [97] (by decide)⟩,
        ⟨.time, (100 : ℕ)⟩] () (.ok (.enqueue, receiveRequest (jobConstruct 5) [97] 100)) := by
    rw [processJob_new]
    exact run_readAndParseJob_data (by decide) (holds_jobConstruct 5) (by decide) (by decide)
      (by decide) (by decide)
  obtain ⟨s, hjob, hnow, hnext⟩ := reachable_waiting hinit (by decide) (by decide)
    (Nat.le_of_ble_eq_true rfl) hrun
  refine ⟨s, _, hnext, hjob ▸ rfl, hjob ▸ hreceive, by decide, hjob ▸ rfl, ?_, rfl⟩
  simp only [hnow, hjob]
  decide

theorem slow_drips (n : ℕ) (hn : n + 2 < jobRequestBufferSize) :
    ∃ s arrived, Slow (List.replicate (n + 1) [97]) (s, arrived) := by
  induction n with
  | zero => exact slow_start
  | succ n ih =>
      obtain ⟨s, arrived, hp⟩ := ih (by omega)
      have hnext := hp.arrive [97] (by simp; omega) (by decide) (by simp; omega) (by simp; omega)
        (by decide)
      rwa [← List.replicate_succ'] at hnext

/-- A client that sends its bytes one by one, each at the last moment, and the last two of the
buffer together is still waited for when the last deadline comes. -/
theorem slow_longest : ∃ p, slowClient.Reachable p ∧
    p.2 = atDeadlines 100 (List.replicate (jobRequestBufferSize - 2) [97] ++ [[97, 97]]) ∧
    p.1.clock = 100 + (jobRequestBufferSize - 1) * keepAliveTimeout := by
  obtain ⟨n, hn⟩ : ∃ n, n + 3 = jobRequestBufferSize := ⟨jobRequestBufferSize - 3, by decide⟩
  obtain ⟨s₀, arrived₀, hslow⟩ := slow_drips n (by omega)
  obtain ⟨s, arrived, hp⟩ := hslow.arrive [97, 97] (by simp; omega) (by decide) (by simp; omega)
    (by simp; omega) (by decide)
  obtain ⟨hfd, hrange, hset⟩ := hp.clockFits (by simp; omega)
  have hrun : (atTime s.job.expirationTime).Run ()
      (processJob 0 ⟨false, .malformed, false, none⟩ [] s.job) _ () (.ok (.enqueue, s.job)) :=
    run_processJob_lastMoment hset (Nat.lt_of_le_of_lt (Nat.le_add_right _ _) hrange)
      (run_readAndParseJob_silent hfd)
  obtain ⟨s', -, hnow, hnext⟩ := reachable_waiting hp.reachable hfd hrange hp.clock hrun
  rw [if_neg (by simp [deliversData]), List.append_nil] at hnext
  have htwo : jobRequestBufferSize - 2 = n + 1 := by omega
  have hone : jobRequestBufferSize - 1 = n + 1 + 1 := by omega
  refine ⟨_, hnext, htwo ▸ hp.arrivals, ?_⟩
  rw [hnow, hp.deadline, hone, List.length_append, List.length_replicate, List.length_singleton]

/-- A client's job that waits was first sent data at most `JOB_REQUEST_BUFFER_SIZE - 1` times
`KEEP_ALIVE_TIMEOUT` seconds ago.  The job of a client that sends one byte at each deadline, and
together the last two for which the buffer has room, still waits then. -/
theorem slowClient_bound :
    (∀ p first rest, slowClient.Reachable p → p.2 = first :: rest →
      p.1.clock ≤ first.1 + (jobRequestBufferSize - 1) * keepAliveTimeout) ∧
      ∃ p first, slowClient.Reachable p ∧
        p.2 = atDeadlines first (List.replicate (jobRequestBufferSize - 2) [97] ++ [[97, 97]]) ∧
        p.1.clock = first + (jobRequestBufferSize - 1) * keepAliveTimeout := by
  refine ⟨fun p first rest hp harrived ↦ ?_, ?_⟩
  · obtain ⟨-, -, -, harrivals, hdeadline⟩ := dripped_reachable hp
    obtain ⟨-, hclock, hle⟩ := hdeadline first rest harrived
    have hbound : p.2.length * keepAliveTimeout ≤ (jobRequestBufferSize - 1) * keepAliveTimeout :=
      Nat.mul_le_mul_right _ (Nat.le_sub_one_of_lt harrivals)
    omega
  · obtain ⟨p, hp, harrived, hclock⟩ := slow_longest
    exact ⟨p, 100, hp, harrived, hclock⟩

end HttpProxy
