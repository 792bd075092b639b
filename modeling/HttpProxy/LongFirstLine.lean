import HttpProxy.RequestCuts

/-!
# A first line that does not end

A client that sends no line feed is answered once the buffer is taken to be full.  The test for
that is one byte short of what `recv` may fill, so it depends on where the chunks end.
-/

namespace HttpProxy

open CString Interaction Protocol

variable {table : BlockTable} {job : Job} {fd : ℤ} {tr : Trace} {held request : List UInt8}
  {arrivals : List Arrival} {chunks : List (List UInt8)} {stream : List UInt8}

/-! ## The calls on a job -/

/-- What a call of `process_job` did, and how it ended. -/
structure ServedCall where
  trace : Trace
  outcome : Except Fault (JobStatus × Job)

/-- The calls on a job, in time and with one arrival each, until one does not ask for the job to
be pushed back or the arrivals are used up. -/
inductive Calls (table : BlockTable) : Job → List Arrival → List ServedCall → Prop
  | none (job : Job) : Calls table job [] []
  | last {job : Job} {arrival : Arrival} {arrivals : List Arrival} {fuel : ℕ} {locals : Locals}
      {tr : Trace} {outcome : Except Fault (JobStatus × Job)}
      (htime : InTime job.expirationTime arrival.now)
      (hrun : (arriving arrival).Run () (processJob fuel locals table job) tr () outcome)
      (hlast : ∀ left, outcome ≠ .ok (.enqueue, left)) :
      Calls table job (arrival :: arrivals) [⟨tr, outcome⟩]
  | next {job left : Job} {arrival : Arrival} {arrivals : List Arrival} {fuel : ℕ}
      {locals : Locals} {tr : Trace} {calls : List ServedCall}
      (htime : InTime job.expirationTime arrival.now)
      (hrun : (arriving arrival).Run () (processJob fuel locals table job) tr ()
        (.ok (.enqueue, left)))
      (hrest : Calls table left arrivals calls) :
      Calls table job (arrival :: arrivals) (⟨tr, .ok (.enqueue, left)⟩ :: calls)

def badRequest : List UInt8 := text "HTTP/1.1 400 Bad Request\r\n"

/-- The other side of the socket is there, and takes some of what it is sent. -/
def Takes (socket : Socket) : Event Resp → Prop
  | ⟨.peek socket', received⟩ =>
      socket' = socket → (received : RecvResult 999).length ≠ 0
  | ⟨.send socket' bytes, sent⟩ =>
      socket' = socket → (sent : Option { n : ℕ // 0 < n ∧ n ≤ bytes.length }) ≠ none
  | _ => True

/-- The call sends the 400 response, as far as the client takes it, and nothing else, and drops
the job. -/
structure AnswersBadRequest (fd : ℤ) (call : ServedCall) : Prop where
  terminates : ∃ left, call.outcome = .ok (.terminate, left)
  sends : bytesSent (.client fd) call.trace <+: badRequest
  whole : (∀ e ∈ call.trace, Takes (.client fd) e) →
    bytesSent (.client fd) call.trace = badRequest

/-- What has arrived by the end of call `k`. -/
def arrivedBy (arrivals : List Arrival) (k : ℕ) : List UInt8 :=
  (arrivals.take (k + 1)).flatMap Arrival.bytes

/-- The job is answered with 400, and so by each call behind which the buffer is full. -/
structure LongLineAnswered (fd : ℤ) (arrivals : List Arrival) (calls : List ServedCall) :
    Prop where
  answered : ∃ call ∈ calls, AnswersBadRequest fd call
  full : ∀ k call, calls[k]? = some call →
    (arrivedBy arrivals k).length = jobRequestBufferSize → AnswersBadRequest fd call

/-- No call answers 400 before a line has ended. -/
def LinesAwaited (fd : ℤ) (arrivals : List Arrival) (calls : List ServedCall) : Prop :=
  ∀ k call, calls[k]? = some call → AnswersBadRequest fd call → lf ∈ arrivedBy arrivals k

/-- A client whose bytes come in these chunks is answered with 400 if its first line is too long
for the buffer, and for a missing line end only then. -/
structure LongLineLaw (fd : ℤ) (stream : List UInt8) (chunks : List (List UInt8)) : Prop where
  long : jobRequestBufferSize ≤ stream.length → lf ∉ stream.take jobRequestBufferSize →
    ∀ table arrivals calls, arrivals.filterMap Arrival.chunk = chunks →
      Calls table (jobConstruct fd) arrivals calls → LongLineAnswered fd arrivals calls
  short : lf ∈ stream.take jobRequestBufferSize →
    ∀ table arrivals calls, arrivals.filterMap Arrival.chunk = chunks →
      Calls table (jobConstruct fd) arrivals calls → LinesAwaited fd arrivals calls

/-- One of the chunks ends where the buffer is taken to be full. -/
def StopsAtTest (chunks : List (List UInt8)) : Prop :=
  ∃ before after, chunks = before ++ after ∧
    before.flatten.length = jobRequestBufferSize - 1

/-! ## Sending the answer -/

theorem run_sendLoop_taken {σ : Type} {P : Protocol Resp σ} {s s' : σ} {socket : Socket}
    {fuel : ℕ} {rest : List UInt8} {out : Except Fault Status}
    (h : P.Run s (sendLoop socket fuel rest) tr s' out) (hfuel : rest.length ≤ fuel)
    (htakes : ∀ e ∈ tr, Takes socket e) : out = .ok .success := by
  induction fuel generalizing rest s tr with
  | zero =>
      obtain rfl : rest = [] := List.length_eq_zero_iff.mp (by omega)
      exact (run_ret.mp h).2.2
  | succ fuel ih =>
      cases rest with
      | nil => exact (run_ret.mp h).2.2
      | cons c rest =>
          simp only [sendLoop, peek_bind, send_bind, run_call] at h
          obtain ⟨alive, tr, -, rfl, h⟩ := h
          have halive : alive.length ≠ 0 := htakes ⟨.peek socket, alive⟩ (by simp) rfl
          rw [if_neg halive, run_call] at h
          obtain ⟨sent, tr, -, rfl, h⟩ := h
          have hsent : sent ≠ none := htakes ⟨.send socket (c :: rest), sent⟩ (by simp) rfl
          obtain ⟨n, rfl⟩ := Option.ne_none_iff_exists'.mp hsent
          have hpos := n.property.1
          apply ih h
          · simp only [List.length_drop, List.length_cons] at hfuel ⊢
            omega
          · exact fun e he ↦ htakes e (List.mem_cons_of_mem _ (List.mem_cons_of_mem _ he))

theorem run_sendToClient {σ : Type} {P : Protocol Resp σ} {s s' : σ} {bytes : List UInt8}
    {out : Except Fault Status} (hfd : fd ≠ -1)
    (h : P.Run s (trySendInChunks (.client fd) bytes bytes.length) tr s' out) :
    bytesSent (.client fd) tr <+: bytes ∧
      ((∀ e ∈ tr, Takes (.client fd) e) → bytesSent (.client fd) tr = bytes) := by
  rw [trySendInChunks, if_neg (show (Socket.client fd).fd ≠ -1 from hfd), Int.toNat_natCast,
    List.take_length] at h
  obtain ⟨-, hfront, hout⟩ := run_sendLoop h le_rfl
  refine ⟨hfront, fun htakes ↦ ?_⟩
  have hsuccess := run_sendLoop_taken h le_rfl htakes
  rcases hout with ⟨-, hall⟩ | hfail
  · exact hall
  · rw [hsuccess] at hfail
    cases hfail

/-- Without a line feed a job with all but the last byte used is answered with 400. -/
theorem run_parseJob_rejects {σ : Type} {P : Protocol Resp σ} {s s' : σ} {fuel : ℕ}
    {locals : Locals} {outcome : Except Fault (JobStatus × Job)} (hfd : job.clientSocketFd ≠ -1)
    (hline : lf ∉ cstr job.request 0) (htail : job.requestTail = jobRequestBufferSize - 1)
    (h : P.Run s (parseJob fuel locals table job) tr s' outcome) :
    AnswersBadRequest job.clientSocketFd ⟨tr, outcome⟩ := by
  have hparse : parseRequestString job.request locals.parseOut =
      .ok (.fail, job.request, locals.parseOut) := by
    rw [parseRequestString, strchr_eq_none (by decide) hline]
  rw [parseJob, hparse, Prog.lift_ok, Prog.ret_bind, if_neg fun hwait ↦ hwait.2 htail,
    if_pos rfl] at h
  rcases h.bind_cases with ⟨fault, hrespond, -⟩ | ⟨_, tr₁, s₁, tr₂, hrespond, hend, rfl⟩
  · obtain ⟨_, _, _, _, -, hret, -⟩ := run_trySendInChunks_bind hrespond
    cases (run_ret.mp hret).2.2
  · obtain ⟨rfl, -, rfl⟩ := run_ret.mp hend
    obtain ⟨_, tr₃, s₃, tr₄, hsend, hret, rfl⟩ := run_trySendInChunks_bind hrespond
    obtain ⟨rfl, -, -⟩ := run_ret.mp hret
    obtain ⟨hfront, hwhole⟩ := run_sendToClient hfd hsend
    rw [List.append_nil, List.append_nil]
    exact ⟨⟨_, rfl⟩, hfront, hwhole⟩

theorem bytesSent_of_reads {socket : Socket} (h : ∀ e ∈ tr, ReadsClient e.1) :
    bytesSent socket tr = [] := by
  rw [bytesSent, List.flatMap_eq_nil_iff]
  rintro ⟨op, r⟩ he
  have hop := h _ he
  cases op <;> first | rfl | exact absurd hop id

theorem AnswersBadRequest.after_reads {before after : Trace}
    {outcome : Except Fault (JobStatus × Job)} (h : AnswersBadRequest fd ⟨after, outcome⟩)
    (hreads : ∀ e ∈ before, ReadsClient e.1) :
    AnswersBadRequest fd ⟨before ++ after, outcome⟩ := by
  have hsent : bytesSent (.client fd) (before ++ after) = bytesSent (.client fd) after := by
    rw [bytesSent_append, bytesSent_of_reads hreads, List.nil_append]
  refine ⟨h.terminates, ?_, fun htakes ↦ ?_⟩
  · rw [hsent]
    exact h.sends
  · rw [hsent]
    exact h.whole fun e he ↦ htakes e (List.mem_append_right _ he)

/-! ## One call -/

/-- How a call on a job ends that holds a part of the first line. -/
inductive CallEnds (job : Job) (held : List UInt8) (arrival : Arrival) (arrivals : List Arrival)
    (request : List UInt8) (call : ServedCall) : Prop
  | line (hline : lf ∈ held ++ arrival.bytes) (hlast : ∀ left, call.outcome ≠ .ok (.enqueue, left))
  | rejects (hline : lf ∉ held ++ arrival.bytes)
      (htest : (held ++ arrival.bytes).length = jobRequestBufferSize - 1)
      (hanswer : AnswersBadRequest job.clientSocketFd call)
  | waits {left : Job} (htest : (held ++ arrival.bytes).length ≠ jobRequestBufferSize - 1)
      (hsocket : left.clientSocketFd = job.clientSocketFd)
      (hout : call.outcome = .ok (.enqueue, left))
      (hrest : Arrives left (held ++ arrival.bytes) arrivals request)

theorem Arrives.callEnds {arrival : Arrival} {fuel : ℕ} {locals : Locals}
    {outcome : Except Fault (JobStatus × Job)}
    (h : Arrives job held (arrival :: arrivals) request)
    (hlength : request.length ≤ jobRequestBufferSize) (hnul : 0 ∉ request)
    (hheld : held.length ≠ jobRequestBufferSize - 1)
    (htime : InTime job.expirationTime arrival.now)
    (hrun : (arriving arrival).Run () (processJob fuel locals table job) tr () outcome) :
    CallEnds job held arrival arrivals request ⟨tr, outcome⟩ := by
  obtain ⟨hsilent, hdata⟩ := run_processJob_arriving h.socket htime hrun
  cases hchunk : arrival.chunk with
  | none =>
      have hbytes : held ++ arrival.bytes = held := by
        rw [arrival.bytes_none hchunk, List.append_nil]
      refine .waits ?_ rfl (hsilent hchunk) ?_
      · rwa [hbytes]
      · rw [hbytes]
        exact h.silent hchunk
  | some chunk =>
      obtain rfl := arrival.bytes_some hchunk
      obtain ⟨hholds, hstring, hne, hfits, -⟩ := h.received hlength hnul hchunk
      obtain ⟨before, after, rfl, hreads, hparse⟩ := hdata _ hchunk hne hfits
      have hsocket : (receiveRequest job arrival.bytes arrival.now).clientSocketFd =
          job.clientSocketFd := rfl
      have hconnected : (receiveRequest job arrival.bytes arrival.now).clientSocketFd ≠ -1 :=
        h.socket
      by_cases hline : lf ∈ held ++ arrival.bytes
      · exact .line hline (run_parseJob_line (by rwa [hstring]) hparse)
      · by_cases htest : (held ++ arrival.bytes).length = jobRequestBufferSize - 1
        · have hopen : lf ∉ cstr (receiveRequest job arrival.bytes arrival.now).request 0 := by
            rwa [hstring]
          have htail : (receiveRequest job arrival.bytes arrival.now).requestTail =
              jobRequestBufferSize - 1 := by
            rwa [hholds.requestTail]
          have hanswer := run_parseJob_rejects hconnected hopen htail hparse
          exact .rejects hline htest (hanswer.after_reads hreads)
        · obtain ⟨hwaits, hnext⟩ := h.waits hlength hnul hchunk hline htest
          rw [hwaits] at hparse
          have hout := (run_ret.mp hparse).2.2
          exact .waits htest hsocket hout hnext

theorem AnswersBadRequest.not_enqueue {call : ServedCall} {left : Job}
    (h : AnswersBadRequest fd call) : call.outcome ≠ .ok (.enqueue, left) := by
  intro hout
  obtain ⟨left', hterminate⟩ := h.terminates
  rw [hterminate] at hout
  cases hout

/-! ## All calls -/

theorem arrivedBy_zero (arrival : Arrival) (arrivals : List Arrival) :
    arrivedBy (arrival :: arrivals) 0 = arrival.bytes := by
  simp [arrivedBy]

theorem arrivedBy_succ (arrival : Arrival) (arrivals : List Arrival) (k : ℕ) :
    arrivedBy (arrival :: arrivals) (k + 1) = arrival.bytes ++ arrivedBy arrivals k := by
  simp [arrivedBy]

theorem stop_in_rest {arrival : Arrival} {before after : List Arrival}
    (hheld : held.length ≠ jobRequestBufferSize - 1)
    (hsplit : arrival :: arrivals = before ++ after)
    (hlevel : (held ++ before.flatMap Arrival.bytes).length = jobRequestBufferSize - 1) :
    ∃ before', arrivals = before' ++ after ∧
      (held ++ arrival.bytes ++ before'.flatMap Arrival.bytes).length =
        jobRequestBufferSize - 1 := by
  cases before with
  | nil => exact absurd (by simpa using hlevel) hheld
  | cons first before =>
      obtain ⟨rfl, rfl⟩ := List.cons.inj hsplit
      exact ⟨before, rfl, by simpa using hlevel⟩

theorem Arrives.line_notMem {arrival : Arrival}
    (h : Arrives job held (arrival :: arrivals) request)
    (hline : lf ∉ request.take (jobRequestBufferSize - 1))
    (hle : (held ++ arrival.bytes).length ≤ jobRequestBufferSize - 1) :
    lf ∉ held ++ arrival.bytes := by
  have hwhole : held ++ arrival.bytes ++ arrivals.flatMap Arrival.bytes = request := by
    rw [← h.whole, List.flatMap_cons, List.append_assoc]
  intro hmem
  apply hline
  rw [← hwhole, List.take_append, List.take_of_length_le hle]
  exact List.mem_append_left _ hmem

/-- If the bytes stop at the test before the first line does, then the job is answered with 400
there, and it never gets more. -/
theorem Calls.rejected {calls : List ServedCall} (hcalls : Calls table job arrivals calls)
    (h : Arrives job held arrivals request) (hlength : request.length ≤ jobRequestBufferSize)
    (hnul : 0 ∉ request) (hheld : held.length ≠ jobRequestBufferSize - 1)
    (hline : lf ∉ request.take (jobRequestBufferSize - 1))
    (hstop : ∃ before after, arrivals = before ++ after ∧
      (held ++ before.flatMap Arrival.bytes).length = jobRequestBufferSize - 1) :
    (∃ k call, calls[k]? = some call ∧ AnswersBadRequest job.clientSocketFd call ∧
      lf ∉ held ++ arrivedBy arrivals k) ∧
    ∀ k call, calls[k]? = some call →
      (held ++ arrivedBy arrivals k).length < jobRequestBufferSize := by
  obtain ⟨before, after, hsplit, hlevel⟩ := hstop
  induction hcalls generalizing held before with
  | none job =>
      obtain ⟨rfl, -⟩ := List.append_eq_nil_iff.mp hsplit.symm
      exact absurd (by simpa using hlevel) hheld
  | @last job arrival arrivals fuel locals tr outcome htime hrun hlast =>
      obtain ⟨before', hrest, hlater⟩ := stop_in_rest hheld hsplit hlevel
      have hle : (held ++ arrival.bytes).length ≤ jobRequestBufferSize - 1 := by
        rw [List.length_append] at hlater
        omega
      have hnone := h.line_notMem hline hle
      cases h.callEnds hlength hnul hheld htime hrun with
      | line hmem => exact absurd hmem hnone
      | waits _ _ hout => exact absurd hout (hlast _)
      | rejects _ htest hanswer =>
          refine ⟨⟨0, _, rfl, hanswer, ?_⟩, ?_⟩
          · rwa [arrivedBy_zero]
          · intro k call hcall
            cases k with
            | zero =>
                rw [arrivedBy_zero, htest]
                decide
            | succ k => cases hcall
  | @next job left arrival arrivals fuel locals tr calls htime hrun hcalls ih =>
      obtain ⟨before', hrest, hlater⟩ := stop_in_rest hheld hsplit hlevel
      have hle : (held ++ arrival.bytes).length ≤ jobRequestBufferSize - 1 := by
        rw [List.length_append] at hlater
        omega
      have hnone := h.line_notMem hline hle
      cases h.callEnds hlength hnul hheld htime hrun with
      | line hmem => exact absurd hmem hnone
      | rejects _ _ hanswer => exact absurd rfl hanswer.not_enqueue
      | waits htest hsocket hout hnext =>
          obtain ⟨-, rfl⟩ := Prod.mk.inj (Except.ok.inj hout)
          obtain ⟨⟨k, call, hcall, hanswer, hopen⟩, hshort⟩ := ih hnext htest before' hrest hlater
          rw [hsocket] at hanswer
          refine ⟨⟨k + 1, call, hcall, hanswer, ?_⟩, ?_⟩
          · rwa [arrivedBy_succ, ← List.append_assoc]
          · intro k call hcall
            cases k with
            | zero =>
                rw [arrivedBy_zero]
                exact hle.trans_lt (by decide)
            | succ k =>
                rw [arrivedBy_succ, ← List.append_assoc]
                exact hshort k call hcall

/-- If they never stop there and the line does not end, then each call pushes the job back. -/
theorem Calls.wait {calls : List ServedCall} (hcalls : Calls table job arrivals calls)
    (h : Arrives job held arrivals request) (hlength : request.length ≤ jobRequestBufferSize)
    (hnul : 0 ∉ request) (hline : lf ∉ request)
    (hpass : ∀ before after, arrivals = before ++ after →
      (held ++ before.flatMap Arrival.bytes).length ≠ jobRequestBufferSize - 1) :
    ∀ call ∈ calls, ∃ left, call.outcome = .ok (.enqueue, left) := by
  have hopen {job : Job} {held : List UInt8} {arrival : Arrival} {arrivals : List Arrival}
      (h : Arrives job held (arrival :: arrivals) request) : lf ∉ held ++ arrival.bytes := by
    intro hmem
    apply hline
    rw [← h.whole, List.flatMap_cons, ← List.append_assoc]
    exact List.mem_append_left _ hmem
  induction hcalls generalizing held with
  | none job => simp
  | @last job arrival arrivals fuel locals tr outcome htime hrun hlast =>
      have hheld : held.length ≠ jobRequestBufferSize - 1 := by
        simpa using hpass [] _ rfl
      cases h.callEnds hlength hnul hheld htime hrun with
      | line hmem => exact absurd hmem (hopen h)
      | waits _ _ hout => exact absurd hout (hlast _)
      | rejects _ htest => exact absurd (by simpa using htest) (hpass [arrival] arrivals rfl)
  | @next job left arrival arrivals fuel locals tr calls htime hrun hcalls ih =>
      have hheld : held.length ≠ jobRequestBufferSize - 1 := by
        simpa using hpass [] _ rfl
      cases h.callEnds hlength hnul hheld htime hrun with
      | line hmem => exact absurd hmem (hopen h)
      | rejects _ htest => exact absurd (by simpa using htest) (hpass [arrival] arrivals rfl)
      | waits htest hsocket hout hnext =>
          obtain ⟨-, rfl⟩ := Prod.mk.inj (Except.ok.inj hout)
          refine List.forall_mem_cons.mpr ⟨⟨_, rfl⟩, ih hnext fun before after hsplit ↦ ?_⟩
          have hnot := hpass (arrival :: before) after (by rw [hsplit]; rfl)
          rwa [List.flatMap_cons, ← List.append_assoc] at hnot

/-- A call that answers 400 without a line end has found all but the last byte used. -/
theorem Calls.tested {calls : List ServedCall} {k : ℕ} {call : ServedCall}
    (hcalls : Calls table job arrivals calls)
    (h : Arrives job held arrivals request) (hlength : request.length ≤ jobRequestBufferSize)
    (hnul : 0 ∉ request) (hheld : held.length ≠ jobRequestBufferSize - 1)
    (hcall : calls[k]? = some call) (hanswer : AnswersBadRequest job.clientSocketFd call)
    (hline : lf ∉ held ++ arrivedBy arrivals k) :
    (held ++ arrivedBy arrivals k).length = jobRequestBufferSize - 1 := by
  induction hcalls generalizing held k with
  | none job => cases hcall
  | @last job arrival arrivals fuel locals tr outcome htime hrun hlast =>
      cases k with
      | succ k => cases hcall
      | zero =>
          rw [arrivedBy_zero] at hline ⊢
          cases h.callEnds hlength hnul hheld htime hrun with
          | line hmem => exact absurd hmem hline
          | waits _ _ hout => exact absurd hout (hlast _)
          | rejects _ htest => exact htest
  | @next job left arrival arrivals fuel locals tr calls htime hrun hcalls ih =>
      cases k with
      | zero =>
          obtain rfl := Option.some.inj hcall
          exact absurd rfl hanswer.not_enqueue
      | succ k =>
          rw [arrivedBy_succ, ← List.append_assoc] at hline ⊢
          cases h.callEnds hlength hnul hheld htime hrun with
          | line hmem => exact absurd (List.mem_append_left _ hmem) hline
          | rejects _ _ hend => exact absurd rfl hend.not_enqueue
          | waits htest hsocket hout hnext =>
              obtain ⟨-, rfl⟩ := Prod.mk.inj (Except.ok.inj hout)
              rw [← hsocket] at hanswer
              exact ih hnext htest hcall hanswer hline

/-- There are calls for any arrivals at time 0. -/
theorem exists_calls (table : BlockTable) (job : Job) (chunks : List (List UInt8)) :
    ∃ calls, Calls table job (chunks.map fun chunk ↦ ⟨0, some chunk⟩) calls := by
  induction chunks generalizing job with
  | nil => exact ⟨[], .none job⟩
  | cons chunk chunks ih =>
      obtain ⟨tr, ⟨⟩, outcome, hrun⟩ := exists_run (arriving_total ⟨0, some chunk⟩)
        (processJob 0 ⟨false, .malformed, false, none⟩ table job) ()
      have htime : InTime job.expirationTime 0 := .inr (Nat.zero_le _)
      by_cases hagain : ∃ left, outcome = .ok (.enqueue, left)
      · obtain ⟨left, rfl⟩ := hagain
        obtain ⟨calls, hcalls⟩ := ih left
        exact ⟨_, .next htime hrun hcalls⟩
      · exact ⟨_, .last htime hrun fun left hout ↦ hagain ⟨left, hout⟩⟩

/-! ## Chunks -/

theorem flatMap_bytes (arrivals : List Arrival) :
    arrivals.flatMap Arrival.bytes = (arrivals.filterMap Arrival.chunk).flatten := by
  induction arrivals with
  | nil => rfl
  | cons arrival arrivals ih =>
      cases hchunk : arrival.chunk with
      | none =>
          rw [List.flatMap_cons, arrival.bytes_none hchunk, List.filterMap_cons_none hchunk, ih,
            List.nil_append]
      | some chunk =>
          rw [List.flatMap_cons, arrival.bytes_some hchunk, List.filterMap_cons_some hchunk, ih,
            List.flatten_cons]

theorem stopsAtTest_iff (hchunks : arrivals.filterMap Arrival.chunk = chunks) :
    StopsAtTest chunks ↔ ∃ before after, arrivals = before ++ after ∧
      (before.flatMap Arrival.bytes).length = jobRequestBufferSize - 1 := by
  constructor
  · rintro ⟨before, after, rfl, hlevel⟩
    obtain ⟨first, rest, hsplit, rfl, -⟩ := List.filterMap_eq_append_iff.mp hchunks
    exact ⟨first, rest, hsplit, by rwa [flatMap_bytes]⟩
  · rintro ⟨before, after, rfl, hlevel⟩
    rw [List.filterMap_append] at hchunks
    exact ⟨_, _, hchunks.symm, by rwa [← flatMap_bytes]⟩

theorem arrives_of_chunks (hfd : fd ≠ -1) (hne : ∀ chunk ∈ chunks, chunk ≠ [])
    (hchunks : arrivals.filterMap Arrival.chunk = chunks) :
    Arrives (jobConstruct fd) [] arrivals chunks.flatten := by
  refine ⟨hfd, holds_jobConstruct fd, by simp, ?_, ?_⟩
  · rw [List.nil_append, flatMap_bytes, hchunks]
  · intro arrival harrival hempty
    apply hne [] _ rfl
    rw [← hchunks]
    exact List.mem_filterMap.mpr ⟨arrival, harrival, hempty⟩

/-- What has arrived by some call is a first part of the bytes. -/
theorem arrivedBy_eq_take {k n : ℕ} (hchunks : arrivals.filterMap Arrival.chunk = chunks)
    (hlevel : (arrivedBy arrivals k).length = n) :
    arrivedBy arrivals k = chunks.flatten.take n := by
  have hsplit : chunks.flatten =
      arrivedBy arrivals k ++ (arrivals.drop (k + 1)).flatMap Arrival.bytes := by
    rw [← hchunks, ← flatMap_bytes, arrivedBy, ← List.flatMap_append, List.take_append_drop]
  rw [hsplit, ← hlevel, List.take_left']
  rfl

theorem filterMap_chunk_map (chunks : List (List UInt8)) :
    (chunks.map fun chunk ↦ (⟨0, some chunk⟩ : Arrival)).filterMap Arrival.chunk = chunks := by
  induction chunks with
  | nil => rfl
  | cons chunk chunks ih => exact congrArg (chunk :: ·) ih

/-! ## When the answer is right -/

/-- The stream has no NUL byte, and the chunks are a cut of the part of it that the buffer
holds. -/
structure CutInto (stream : List UInt8) (chunks : List (List UInt8)) : Prop where
  nulFree : 0 ∉ stream
  nonempty : ∀ chunk ∈ chunks, chunk ≠ []
  whole : chunks.flatten = stream.take jobRequestBufferSize

namespace CutInto

theorem length_le (h : CutInto stream chunks) : chunks.flatten.length ≤ jobRequestBufferSize := by
  rw [h.whole]
  exact List.length_take_le _ _

theorem nul_notMem (h : CutInto stream chunks) : 0 ∉ chunks.flatten := by
  rw [h.whole]
  exact fun hmem ↦ h.nulFree (List.mem_of_mem_take hmem)

theorem take_test (h : CutInto stream chunks) :
    chunks.flatten.take (jobRequestBufferSize - 1) = stream.take (jobRequestBufferSize - 1) := by
  rw [h.whole, List.take_take, Nat.min_eq_left (Nat.sub_le _ _)]

theorem mem_of_take_test (h : CutInto stream chunks) {c : UInt8}
    (hmem : c ∈ stream.take (jobRequestBufferSize - 1)) : c ∈ chunks.flatten := by
  rw [← h.take_test] at hmem
  exact List.mem_of_mem_take hmem

/-- If no chunk ends at the test, then a job without a line end waits at a full buffer. -/
theorem stopsAtTest (hfd : fd ≠ -1) (hcut : CutInto stream chunks)
    (h : LongLineLaw fd stream chunks) (hlong : jobRequestBufferSize ≤ stream.length)
    (hline : lf ∉ stream.take jobRequestBufferSize) : StopsAtTest chunks := by
  have hchunks := filterMap_chunk_map chunks
  have harrives := arrives_of_chunks hfd hcut.nonempty hchunks
  obtain ⟨calls, hcalls⟩ := exists_calls [] (jobConstruct fd) chunks
  by_contra hpass
  rw [stopsAtTest_iff hchunks] at hpass
  have hanswered := h.long hlong hline _ _ _ hchunks hcalls
  obtain ⟨call, hcall, hanswer⟩ := hanswered.answered
  rw [← hcut.whole] at hline
  have hwaits := hcalls.wait harrives hcut.length_le hcut.nul_notMem hline
    fun before after hsplit hlevel ↦ hpass ⟨before, after, hsplit, hlevel⟩
  obtain ⟨left, hout⟩ := hwaits call hcall
  exact hanswer.not_enqueue hout

/-- If one does, then a job without a line end is answered there. -/
theorem line_mem (hfd : fd ≠ -1) (hcut : CutInto stream chunks)
    (h : LongLineLaw fd stream chunks) (hline : lf ∈ stream.take jobRequestBufferSize)
    (hstop : StopsAtTest chunks) : lf ∈ stream.take (jobRequestBufferSize - 1) := by
  have hchunks := filterMap_chunk_map chunks
  have harrives := arrives_of_chunks hfd hcut.nonempty hchunks
  obtain ⟨calls, hcalls⟩ := exists_calls [] (jobConstruct fd) chunks
  by_contra hnone
  rw [stopsAtTest_iff hchunks] at hstop
  rw [← hcut.take_test] at hnone
  obtain ⟨⟨k, call, hcall, hanswer, hopen⟩, -⟩ :=
    hcalls.rejected harrives hcut.length_le hcut.nul_notMem (by decide) hnone hstop
  exact hopen (h.short hline _ _ _ hchunks hcalls k call hcall hanswer)

end CutInto

/-- A client is answered with 400 as it should be if and only if, for a first line that is too
long, one of the chunks ends one byte before the buffer does, and, for one that ends with the last
byte of the buffer, none does. -/
theorem longLine_iff (hfd : fd ≠ -1) (hcut : CutInto stream chunks) :
    LongLineLaw fd stream chunks ↔
      (jobRequestBufferSize ≤ stream.length → lf ∉ stream.take jobRequestBufferSize →
        StopsAtTest chunks) ∧
      (lf ∈ stream.take jobRequestBufferSize → StopsAtTest chunks →
        lf ∈ stream.take (jobRequestBufferSize - 1)) := by
  constructor
  · exact fun h ↦ ⟨hcut.stopsAtTest hfd h, hcut.line_mem hfd h⟩
  · rintro ⟨hlong, hshort⟩
    constructor
    · intro hfull hline table arrivals calls hchunks hcalls
      have harrives := arrives_of_chunks hfd hcut.nonempty hchunks
      have hstop := (stopsAtTest_iff hchunks).mp (hlong hfull hline)
      have hnone : lf ∉ chunks.flatten.take (jobRequestBufferSize - 1) := by
        rw [hcut.take_test]
        rw [← hcut.whole] at hline
        exact fun hmem ↦ hline (hcut.mem_of_take_test hmem)
      obtain ⟨⟨k, call, hcall, hanswer, -⟩, hless⟩ :=
        hcalls.rejected harrives hcut.length_le hcut.nul_notMem (by decide) hnone hstop
      refine ⟨⟨call, List.mem_of_getElem? hcall, hanswer⟩, fun k call hcall hlevel ↦ ?_⟩
      exact absurd hlevel (hless k call hcall).ne
    · intro hline table arrivals calls hchunks hcalls k call hcall hanswer
      have harrives := arrives_of_chunks hfd hcut.nonempty hchunks
      by_contra hopen
      have hlevel :=
        hcalls.tested harrives hcut.length_le hcut.nul_notMem (by decide) hcall hanswer hopen
      have hstop : StopsAtTest chunks :=
        (stopsAtTest_iff hchunks).mpr ⟨_, _, (List.take_append_drop (k + 1) arrivals).symm, hlevel⟩
      have hmem := hshort hline hstop
      rw [← hcut.take_test, ← arrivedBy_eq_take hchunks hlevel] at hmem
      exact hopen hmem

/-- A GET line that comes in two chunks is not answered too early, and a line of letters is
answered if it is cut one byte before the end of the buffer. -/
theorem longLine_iff_twoChunks :
    LongLineLaw 3 (text "GET / HTTP/1.1\r\n") [text "GET / ", text "HTTP/1.1\r\n"] ∧
      LongLineLaw 3 (.replicate jobRequestBufferSize 97)
        [.replicate (jobRequestBufferSize - 1) 97, [97]] := by
  constructor
  · refine (longLine_iff (by decide) ⟨by decide, by decide, by decide⟩).mpr ⟨?_, ?_⟩
    · exact fun hlong ↦ absurd hlong (by decide)
    · exact fun _ _ ↦ by decide
  · have hletters (c : UInt8) (hc : c ≠ 97) : c ∉ List.replicate jobRequestBufferSize 97 :=
      fun hmem ↦ hc (List.eq_of_mem_replicate hmem)
    have hall : (List.replicate jobRequestBufferSize (97 : UInt8)).take jobRequestBufferSize =
        List.replicate jobRequestBufferSize 97 := List.take_of_length_le (by simp)
    have hwhole : [List.replicate (jobRequestBufferSize - 1) (97 : UInt8), [97]].flatten =
        List.replicate jobRequestBufferSize 97 := List.replicate_succ'.symm
    have hcut : CutInto (List.replicate jobRequestBufferSize 97)
        [List.replicate (jobRequestBufferSize - 1) 97, [97]] := by
      refine ⟨hletters 0 (by decide), ?_, hwhole.trans hall.symm⟩
      rw [List.forall_mem_cons]
      exact ⟨List.ne_nil_of_length_pos (by rw [List.length_replicate]; decide), by decide⟩
    refine (longLine_iff (by decide) hcut).mpr ⟨fun _ _ ↦ ?_, fun hline ↦ ?_⟩
    · exact ⟨[_], [_], rfl, by simp⟩
    · rw [hall] at hline
      exact absurd hline (hletters lf (by decide))

/-- An open line that fills the buffer in one chunk is not answered. -/
theorem not_longLineLaw_oneChunk {line : List UInt8} (hfd : fd ≠ -1)
    (hlength : line.length = jobRequestBufferSize) (hnul : 0 ∉ line) (hline : lf ∉ line) :
    ¬LongLineLaw fd line [line] := by
  intro h
  have hall : line.take jobRequestBufferSize = line := List.take_of_length_le hlength.le
  have hcut : CutInto line [line] := by
    refine ⟨hnul, ?_, ?_⟩
    · rw [List.forall_mem_singleton]
      exact List.ne_nil_of_length_pos (by rw [hlength]; decide)
    · rw [hall, List.flatten_singleton]
  rw [← hall] at hline
  obtain ⟨before, after, hsplit, hlevel⟩ := hcut.stopsAtTest hfd h hlength.ge hline
  rcases List.singleton_eq_append_iff.mp hsplit with ⟨rfl, -⟩ | ⟨rfl, -⟩
  · exact absurd hlevel (by decide)
  · rw [List.flatten_singleton, hlength] at hlevel
    exact absurd hlevel (by decide)

/-- A line whose line feed comes alone as the last byte of the buffer is answered before. -/
theorem not_longLineLaw_lastByte {line : List UInt8} (hfd : fd ≠ -1)
    (hlength : line.length = jobRequestBufferSize - 1) (hnul : 0 ∉ line) (hline : lf ∉ line) :
    ¬LongLineLaw fd (line ++ [lf]) [line, [lf]] := by
  intro h
  have hall : (line ++ [lf]).take jobRequestBufferSize = line ++ [lf] := by
    apply List.take_of_length_le
    rw [List.length_append, hlength]
    exact le_rfl
  have hcut : CutInto (line ++ [lf]) [line, [lf]] := by
    refine ⟨?_, ?_, ?_⟩
    · rw [List.mem_append]
      exact not_or.mpr ⟨hnul, by decide⟩
    · rw [List.forall_mem_cons]
      exact ⟨List.ne_nil_of_length_pos (by rw [hlength]; decide), by decide⟩
    · rw [hall]
      exact congrArg (line ++ ·) (List.append_nil [lf])
  have hstop : StopsAtTest [line, [lf]] := by
    refine ⟨[line], [[lf]], rfl, ?_⟩
    rw [List.flatten_singleton, hlength]
  have hmem : lf ∈ (line ++ [lf]).take (jobRequestBufferSize - 1) := by
    apply hcut.line_mem hfd h _ hstop
    rw [hall]
    exact List.mem_append_right _ (List.mem_singleton_self _)
  rw [List.take_left' hlength] at hmem
  exact hline hmem

/-- A first line that fills the buffer in one chunk is not answered, and one whose line feed comes
alone as the last byte of the buffer is answered before it has come. -/
theorem longLine_broken :
    ¬ LongLineLaw 3 (.replicate jobRequestBufferSize 97) [.replicate jobRequestBufferSize 97] ∧
      ¬ LongLineLaw 3 (.replicate (jobRequestBufferSize - 1) 97 ++ [lf])
        [.replicate (jobRequestBufferSize - 1) 97, [lf]] := by
  have hletters (n : ℕ) (c : UInt8) (hc : c ≠ 97) : c ∉ List.replicate n 97 :=
    fun hmem ↦ hc (List.eq_of_mem_replicate hmem)
  constructor
  · exact not_longLineLaw_oneChunk (by decide) List.length_replicate
      (hletters _ _ (by decide)) (hletters _ _ (by decide))
  · exact not_longLineLaw_lastByte (by decide) List.length_replicate
      (hletters _ _ (by decide)) (hletters _ _ (by decide))

end HttpProxy
