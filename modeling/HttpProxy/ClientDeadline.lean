import HttpProxy.Lib.TransitionSystem
import HttpProxy.RequestBuffer

/-!
# How long a client job can stay

A job is processed again and again while `process_job` asks for it to be pushed back.  The
deadline is written when data arrives and at no other time, and zero means that there is
none.
-/

namespace HttpProxy

open Interaction Protocol Transition

variable {fuel : ℕ} {locals : Locals} {table : BlockTable} {job left : Job} {now : ℕ} {tr : Trace}

/-- A call that takes place at one moment. -/
def atTime (now : ℕ) : Protocol Resp Unit where
  requires _ _ := True
  answers _ op r :=
    match op, r with
    | .time, answer => answer = now
    | _, _ => True
  next _ _ _ := ()

/-- New bytes from the client. -/
def deliversData : Event Resp → Bool
  | ⟨.recv (.client _) _ _, .data bytes _⟩ => bytes ≠ []
  | _ => false

/-- All that a call which asks for the job to be pushed back can have done. -/
inductive Waits (now : ℕ) (job : Job) : Trace → Job → Prop
  | noSocket (request : List UInt8) (hfd : job.clientSocketFd = -1) {tr : Trace}
      (htr : tr.any deliversData = false) : Waits now job tr { job with request := request }
  | noData (hfd : job.clientSocketFd ≠ -1) {tr : Trace} (htr : tr.any deliversData = false) :
      Waits now job tr job
  | data (request : List UInt8) (requestTail : ℕ) (hfd : job.clientSocketFd ≠ -1) {tr : Trace}
      (htr : tr.any deliversData = true) :
      Waits now job tr { job with
        request := request
        requestTail := requestTail
        expirationTime := (unsignedTime now + keepAliveTimeout) % 4294967296 }

theorem run_readAndParseJob_enqueue (h : (atTime now).Run () (readAndParseJob fuel locals table job)
    tr () (.ok (.enqueue, left))) : Waits now job tr left := by
  generalize hout : Except.ok (JobStatus.enqueue, left) = outcome at h
  cases run_readAndParseJob_cases h with
  | prefetch hfd hrun =>
      subst hout
      obtain ⟨rfl, request, -, -, rfl⟩ := run_parseJob_enqueue hrun
      exact .noSocket request hfd rfl
  | noData hfd =>
      cases hout
      exact .noData hfd rfl
  | closed => cases hout
  | data hfd bytes clock hne hfits hbytes htime hrun =>
      subst hout
      obtain rfl : clock = now := htime
      obtain ⟨rfl, request, -, -, rfl⟩ := run_parseJob_enqueue hrun
      exact .data request _ hfd (by simp [deliversData, hne])

/-- An expired job is dropped. -/
theorem run_processJob_expired {out : Except Fault (JobStatus × Job)}
    (h : (atTime now).Run () (processJob fuel locals table job) tr () out)
    (hset : job.expirationTime ≠ 0) (hexpired : job.expirationTime < unsignedTime now) :
    out = .ok (.terminate, job) := by
  rcases run_processJob_cases h with ⟨hzero, -⟩ | ⟨-, clock, tr, hclock, -, hcall⟩
  · exact absurd hzero hset
  · obtain rfl : clock = now := hclock
    rcases hcall with ⟨-, -, hout⟩ | ⟨hlive, -⟩
    · exact hout
    · exact absurd hexpired (not_lt.mpr hlive)

theorem run_processJob_enqueue (h : (atTime now).Run () (processJob fuel locals table job) tr ()
    (.ok (.enqueue, left))) : Waits now job tr left := by
  rcases run_processJob_cases h with ⟨-, hread⟩ | ⟨-, clock, tr, -, rfl, hcall⟩
  · exact run_readAndParseJob_enqueue hread
  · rcases hcall with ⟨-, -, hout⟩ | ⟨-, hread⟩
    · cases hout
    · cases run_readAndParseJob_enqueue hread with
      | noSocket request hfd htr => exact .noSocket request hfd (by simpa [deliversData] using htr)
      | noData hfd htr => exact .noData hfd (by simpa [deliversData] using htr)
      | data request requestTail hfd htr =>
          exact .data request requestTail hfd (by simpa [deliversData] using htr)

/-! ## The calls on one job -/

/-- A job that waits to be processed, the clock at the last call on it, and when the first
call was and when data last arrived. -/
structure ClientWait where
  job : Job
  clock : ℕ
  firstCall : Option ℕ
  lastData : Option ℕ

/-- A call: when it takes place and what it is answered. -/
structure JobCall where
  now : ℕ
  trace : Trace

def JobCall.dataTime (call : JobCall) (lastData : Option ℕ) : Option ℕ :=
  if call.trace.any deliversData then some call.now else lastData

inductive ClientStep : ClientWait → JobCall → ClientWait → Prop
  | enqueue {s : ClientWait} {call : JobCall} {left : Job} (fuel : ℕ) (locals : Locals)
      (table : BlockTable) (hclock : s.clock ≤ call.now)
      (hrun : (atTime call.now).Run () (processJob fuel locals table s.job) call.trace ()
        (.ok (.enqueue, left))) :
      ClientStep s call ⟨left, call.now, some (s.firstCall.getD call.now), call.dataTime s.lastData⟩

/-- The calls on a job that `main` has constructed, up to the first one that terminates. -/
def clientCalls : System ClientWait JobCall where
  Init s := ∃ fd clock, s = ⟨jobConstruct fd, clock, none, none⟩
  Step := ClientStep

/-- A job that waits has a deadline soon after the last data, or after the first call if no
data has come, and no later call lets it wait beyond.  The later calls are those the guard
admits. -/
def Expires (guard : ClientWait → JobCall → Prop) (s : ClientWait) : Prop :=
  ∀ first, s.firstCall = some first →
    s.job.expirationTime ≠ 0 ∧
      s.job.expirationTime ≤ s.lastData.getD first + keepAliveTimeout ∧
        ∀ call fuel locals table result, s.clock ≤ call.now → guard s call →
          s.lastData.getD first + keepAliveTimeout < call.now →
            call.trace.any deliversData = false →
              (atTime call.now).Run () (processJob fuel locals table s.job) call.trace ()
                (.ok result) → result.1 = .terminate

/-- The job has a socket and data has arrived, now or before; the deadline that was written
then is not zero, and once it is over the clock is ahead of it, both in 32 bits. -/
structure DataHasArrived (s : ClientWait) (call : JobCall) : Prop where
  socket : s.job.clientSocketFd ≠ -1
  arrived : ∃ t, call.dataTime s.lastData = some t ∧ (t + keepAliveTimeout) % 4294967296 ≠ 0
  ahead : ∀ t, s.lastData = some t → t + keepAliveTimeout < call.now →
    (t + keepAliveTimeout) % 4294967296 < unsignedTime call.now

/-- The deadline is the one that was written when data last arrived. -/
structure DeadlineWritten (s : ClientWait) : Prop where
  arrived : s.firstCall.isSome → s.lastData.isSome
  written : ∀ t, s.lastData = some t →
    s.job.expirationTime = (t + keepAliveTimeout) % 4294967296 ∧
      (t + keepAliveTimeout) % 4294967296 ≠ 0

theorem DeadlineWritten.step {s s' : ClientWait} {call : JobCall} (hs : DeadlineWritten s)
    (hdata : DataHasArrived s call) (h : ClientStep s call s') : DeadlineWritten s' := by
  obtain ⟨t, ht, hne⟩ := hdata.arrived
  cases h with
  | @enqueue left fuel locals table hclock hrun =>
      refine ⟨fun _ ↦ by simp [ht], fun t' ht' ↦ ?_⟩
      obtain rfl : t = t' := by simpa [ht] using ht'
      refine ⟨?_, hne⟩
      cases run_processJob_enqueue hrun with
      | noSocket request hfd => exact absurd hfd hdata.socket
      | noData hfd htr =>
          rw [JobCall.dataTime, htr] at ht
          exact (hs.written t ht).1
      | data request requestTail hfd htr =>
          rw [JobCall.dataTime, htr] at ht
          obtain rfl : call.now = t := by simpa using ht
          exact Nat.mod_add_mod _ _ _

theorem deadlineWritten_reachable {s : ClientWait}
    (hs : (clientCalls.guarded DataHasArrived).Reachable s) : DeadlineWritten s := by
  refine System.reachable_induction ?_ ?_ hs
  · rintro _ ⟨fd, clock, rfl⟩
    exact ⟨by simp, by simp⟩
  · rintro s call s' ih ⟨hdata, h⟩
    exact ih.step hdata h

/-- A client that has sent something by the time of the first call cannot stay forever. -/
theorem clientJobs_expire {s : ClientWait}
    (hs : (clientCalls.guarded DataHasArrived).Reachable s) : Expires DataHasArrived s := by
  intro first hfirst
  have hkept := deadlineWritten_reachable hs
  obtain ⟨t, ht⟩ := Option.isSome_iff_exists.mp (hkept.arrived (by simp [hfirst]))
  obtain ⟨hwritten, hne⟩ := hkept.written t ht
  have hsince : s.lastData.getD first = t := by simp [ht]
  rw [hsince, hwritten]
  refine ⟨hne, Nat.mod_le _ _, ?_⟩
  intro call fuel locals table result hclock hguard hlate hnone hrun
  have hahead := hguard.ahead t ht hlate
  rw [← hwritten] at hahead hne
  cases run_processJob_expired hrun hne hahead
  rfl

theorem clientJobs_expire_oneChunk : ∃ s : ClientWait, s.job.clientSocketFd = 5 ∧
    s.firstCall = some 100 ∧ s.lastData = some 100 ∧ Expires DataHasArrived s := by
  let chunk : RecvResult (jobRequestBufferSize - 0) := .data (text "GET") (by decide)
  let call : JobCall := ⟨100, [⟨.recv (.client 5) (jobRequestBufferSize - 0) true, chunk⟩,
    ⟨.time, (100 : ℕ)⟩]⟩
  have hholds : Holds (receiveRequest (jobConstruct 5) (text "GET") 100) (text "GET") :=
    (holds_jobConstruct 5).receive (by decide) 100
  have hline : lf ∉ CString.cstr (receiveRequest (jobConstruct 5) (text "GET") 100).request 0 := by
    rw [hholds.string (by decide)]
    decide
  have hrun : (atTime 100).Run () (processJob 0 ⟨false, .malformed, false, none⟩ []
      (jobConstruct 5)) call.trace ()
        (.ok (.enqueue, receiveRequest (jobConstruct 5) (text "GET") 100)) := by
    apply run_processJob_new (by decide) (by decide) (by decide) trivial rfl
    rw [parseJob_waits hline (by decide)]
    exact .ret _
  have hinit : (clientCalls.guarded DataHasArrived).Reachable ⟨jobConstruct 5, 7, none, none⟩ :=
    .init ⟨5, 7, rfl⟩
  have hguard : DataHasArrived ⟨jobConstruct 5, 7, none, none⟩ call := by
    refine ⟨by decide, ⟨100, rfl, by decide⟩, nofun⟩
  have hcall := hinit.step ⟨hguard, .enqueue _ _ _ (by decide) hrun⟩
  exact ⟨_, rfl, rfl, rfl, clientJobs_expire hcall⟩

/-- A client that connects and sends nothing has no deadline, and neither has the job of a
failed `accept`. -/
theorem not_always_expires :
    (∃ s, clientCalls.Reachable s ∧ s.job.clientSocketFd = 5 ∧ ¬Expires (fun _ _ ↦ True) s) ∧
      ∃ s, clientCalls.Reachable s ∧ s.job.clientSocketFd = -1 ∧
        ¬Expires (fun _ _ ↦ True) s := by
  have hinit : ∀ fd, clientCalls.Reachable ⟨jobConstruct fd, 7, none, none⟩ :=
    fun fd ↦ .init ⟨fd, 7, rfl⟩
  have hlost : ∀ s : ClientWait, s.firstCall = some 100 → s.job.expirationTime = 0 →
      ¬Expires (fun _ _ ↦ True) s := fun s hfirst hzero h ↦ (h 100 hfirst).1 hzero
  have hsilent : (atTime 100).Run () (processJob 0 ⟨false, .malformed, false, none⟩ []
      (jobConstruct 5)) [⟨.recv (.client 5) (jobRequestBufferSize - 0) true, .error⟩] ()
        (.ok (.enqueue, jobConstruct 5)) := by
    rw [processJob_new, readAndParseJob, if_neg (by decide)]
    exact run_call.mpr ⟨RecvResult.error, [], trivial, rfl, .ret _⟩
  have hnoSocket : (atTime 100).Run () (processJob 0 ⟨false, .malformed, false, none⟩ []
      (jobConstruct (-1))) [] () (.ok (.enqueue, jobConstruct (-1))) := by
    rw [processJob_new, readAndParseJob, if_pos (by rfl), parseJob_waits (by decide) (by decide)]
    exact .ret _
  have hcall : ∀ {fd : ℤ} {tr : Trace} {left : Job}, (atTime 100).Run ()
      (processJob 0 ⟨false, .malformed, false, none⟩ [] (jobConstruct fd)) tr ()
        (.ok (.enqueue, left)) → clientCalls.Reachable _ :=
    fun {fd} {tr} {left} hrun ↦ (hinit fd).step
      (.enqueue 0 _ [] (show 7 ≤ (JobCall.mk 100 tr).now from Nat.le_of_ble_eq_true rfl) hrun)
  exact ⟨⟨_, hcall hsilent, rfl, hlost _ rfl rfl⟩, ⟨_, hcall hnoSocket, rfl, hlost _ rfl rfl⟩⟩

end HttpProxy
