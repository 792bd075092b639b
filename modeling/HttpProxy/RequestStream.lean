import HttpProxy.Lib.TransitionSystem
import HttpProxy.RequestBuffer

/-!
# The request buffer as a stream

A client's job is processed again and again until its first line has come.  As long as it is
pushed back, its buffer is what has been received, with nothing but NULs behind, since the
parser writes into the buffer only if it succeeds.
-/

namespace HttpProxy

open CString Interaction Protocol Transition

variable {fuel : ℕ} {locals : Locals} {table : BlockTable} {job left : Job} {stream : List UInt8}
  {tr : Trace} {outcome : Except Fault (JobStatus × Job)}

/-! ## The calls on a job -/

def fromClient : Event Resp → List UInt8
  | ⟨.recv (.client _) size _, received⟩ => (received : RecvResult size).bytes
  | _ => []

/-- What a call received from the client. -/
def streamOf (tr : Trace) : List UInt8 := tr.flatMap fromClient

/-- The calls on a client's job that all ask for it to be pushed back, whatever they are
answered. -/
def waitingCalls : System Job Trace where
  Init job := ∃ fd, fd ≠ -1 ∧ job = jobConstruct fd
  Step job tr left := ∃ fuel locals table,
    anything.Run () (processJob fuel locals table job) tr () (.ok (.enqueue, left))

/-- The calls together with all that they have received. -/
def clientStream : System (Job × List UInt8) Trace := waitingCalls.logged fun _ tr _ ↦ streamOf tr

/-- The buffer starts with the stream and is NUL from there on. -/
structure BufferIsStream (job : Job) (stream : List UInt8) : Prop where
  requestTail : job.requestTail = stream.length
  fits : job.requestTail ≤ jobRequestBufferSize
  received : job.request.take job.requestTail = stream
  rest : ∀ i, job.requestTail ≤ i → i ≤ jobRequestBufferSize → job.request[i]? = some 0

/-- The string in the buffer is what the stream starts with, and its end is in the buffer. -/
structure SeesStream (request stream : List UInt8) : Prop where
  start : cstr request 0 <+: stream
  ended : request[(cstr request 0).length]? = some 0

/-- All that a call does with the buffer: without new bytes it is done, and with them it parses
the stream so far, and does what follows from that. -/
inductive ParsesStream (fuel : ℕ) (locals : Locals) (table : BlockTable) (job : Job)
    (stream : List UInt8) : Trace → Except Fault (JobStatus × Job) → Prop
  | unread {tr : Trace} {status : JobStatus} (htr : streamOf tr = []) :
      ParsesStream fuel locals table job stream tr (.ok (status, job))
  | parsed {before after : Trace} {outcome : Except Fault (JobStatus × Job)} (chunk : List UInt8)
      (now : ℕ) (hbefore : streamOf before = chunk)
      (hfits : chunk.length ≤ jobRequestBufferSize - job.requestTail)
      (hbuffer : BufferIsStream (receiveRequest job chunk now) (stream ++ chunk))
      (hsees : SeesStream (receiveRequest job chunk now).request (stream ++ chunk))
      (hrun : anything.Run () (parseJob fuel locals table (receiveRequest job chunk now)) after ()
        outcome) :
      ParsesStream fuel locals table job stream (before ++ after) outcome

/-! ## The buffer -/

theorem Holds.bufferIsStream (h : Holds job stream) : BufferIsStream job stream := by
  have htail := h.requestTail
  have hfits := h.fits
  refine ⟨htail, by omega, by rw [h.request, htail, List.take_left], fun i hlow hhigh ↦ ?_⟩
  rw [h.request, List.getElem?_append_right (by omega), ← List.replicate_succ,
    List.getElem?_replicate_of_lt (by omega)]

theorem Holds.seesStream (h : Holds job stream) : SeesStream job.request stream := by
  have hstring : cstr job.request 0 = stream.takeWhile (· ≠ 0) := by
    rw [h.request]
    exact takeWhile_append_cons_of_neg (by simp)
  exact ⟨hstring ▸ List.takeWhile_prefix _, getElem?_length_cstr (by simp [h.request])⟩

/-- An unsuccessful parse writes nothing. -/
theorem parseRequestString_fail {request left : List UInt8} {out out' : ParseOut}
    (h : parseRequestString request out = .ok (.fail, left, out')) :
    left = request ∧ out' = out := by
  have hline : lf ∉ cstr request 0 := (parseRequestString_ok h).2.resolve_left (by simp)
  rw [parseRequestString, strchr_eq_none (by decide) hline] at h
  cases h
  exact ⟨rfl, rfl⟩

/-! ## One call -/

theorem Holds.parsesStream {now : ℕ} {chunk : List UInt8} {before after : Trace}
    (hholds : Holds job stream) (hbefore : streamOf before = chunk)
    (hfits : chunk.length ≤ jobRequestBufferSize - job.requestTail)
    (hrun : anything.Run () (parseJob fuel locals table (receiveRequest job chunk now)) after ()
      outcome) :
    ParsesStream fuel locals table job stream (before ++ after) outcome :=
  have hreceived := hholds.receive hfits now
  .parsed chunk now hbefore hfits hreceived.bufferIsStream hreceived.seesStream hrun

theorem run_readAndParseJob_stream (hfd : job.clientSocketFd ≠ -1) (hholds : Holds job stream)
    (h : anything.Run () (readAndParseJob fuel locals table job) tr () outcome) :
    ParsesStream fuel locals table job stream tr outcome := by
  cases run_readAndParseJob_cases h with
  | prefetch hnone => exact absurd hnone hfd
  | noData => exact .unread (by simp [streamOf, fromClient, RecvResult.bytes])
  | closed => exact .unread (by simp [streamOf, fromClient, RecvResult.bytes])
  | data _ chunk now hne hfits hbytes htime hrun =>
      have hbefore : streamOf [⟨.recv (.client job.clientSocketFd)
          (jobRequestBufferSize - job.requestTail) true, .data chunk hfits⟩, ⟨.time, now⟩] =
            chunk := by simp [streamOf, fromClient, RecvResult.bytes]
      exact hholds.parsesStream hbefore hfits hrun

/-- The clock is no client. -/
theorem ParsesStream.time (h : ParsesStream fuel locals table job stream tr outcome) (now : ℕ) :
    ParsesStream fuel locals table job stream (⟨.time, now⟩ :: tr) outcome := by
  cases h with
  | unread htr => exact .unread htr
  | @parsed before after _ chunk clock hbefore hfits hbuffer hsees hrun =>
      have hclocked : streamOf (⟨.time, now⟩ :: before) = chunk := hbefore
      exact .parsed chunk clock hclocked hfits hbuffer hsees hrun

/-- A call parses the stream, or it does nothing. -/
theorem run_processJob_stream (hfd : job.clientSocketFd ≠ -1) (hholds : Holds job stream)
    (h : anything.Run () (processJob fuel locals table job) tr () outcome) :
    ParsesStream fuel locals table job stream tr outcome := by
  rcases run_processJob_cases h with ⟨-, hread⟩ | ⟨-, now, tr, -, rfl, hcall⟩
  · exact run_readAndParseJob_stream hfd hholds hread
  · rcases hcall with ⟨-, rfl, rfl⟩ | ⟨-, hread⟩
    · exact .unread (Eq.refl _)
    · exact (run_readAndParseJob_stream hfd hholds hread).time now

/-- A call that pushes the job back has appended what it received to the stream. -/
theorem ParsesStream.enqueue (hholds : Holds job stream)
    (h : ParsesStream fuel locals table job stream tr (.ok (.enqueue, left))) :
    left.clientSocketFd = job.clientSocketFd ∧ Holds left (stream ++ streamOf tr) := by
  generalize hout : Except.ok (JobStatus.enqueue, left) = outcome at h
  cases h with
  | unread htr =>
      cases hout
      exact ⟨Eq.refl _, by rwa [htr, List.append_nil]⟩
  | parsed chunk now hbefore hfits hbuffer hsees hrun =>
      subst hout
      obtain ⟨rfl, request, out, hparse, rfl⟩ := run_parseJob_enqueue hrun
      obtain ⟨rfl, -⟩ := parseRequestString_fail hparse
      rw [List.append_nil, hbefore]
      exact ⟨Eq.refl _, hholds.receive hfits now⟩

/-! ## All calls -/

/-- A client's job that holds what has been received. -/
structure HoldsStream (s : Job × List UInt8) : Prop where
  socket : s.1.clientSocketFd ≠ -1
  holds : Holds s.1 s.2

theorem HoldsStream.step {s s' : Job × List UInt8} (h : HoldsStream s)
    (hstep : clientStream.Step s tr s') : HoldsStream s' := by
  obtain ⟨⟨fuel, locals, table, hrun⟩, hstream⟩ := hstep
  obtain ⟨hsocket, hholds⟩ := (run_processJob_stream h.socket h.holds hrun).enqueue h.holds
  exact ⟨hsocket ▸ h.socket, hstream ▸ hholds⟩

theorem holdsStream_reachable {s : Job × List UInt8} (hs : clientStream.Reachable s) :
    HoldsStream s := by
  refine System.reachable_induction ?_ ?_ hs
  · rintro ⟨_, _⟩ ⟨⟨fd, hfd, rfl⟩, rfl⟩
    exact ⟨hfd, holds_jobConstruct fd⟩
  · intro s tr s' ih hstep
    exact ih.step hstep

/-- After any calls that all pushed a client's job back, the buffer is the stream; the next call
parses what the stream starts with, if it parses at all; and a parse that fails leaves the
buffer as it is. -/
theorem requestBuffer_isStream (hs : clientStream.Reachable (job, stream)) :
    BufferIsStream job stream ∧
      (∀ fuel locals table tr outcome,
        anything.Run () (processJob fuel locals table job) tr () outcome →
          ParsesStream fuel locals table job stream tr outcome) ∧
      ∀ request left out out', parseRequestString request out = .ok (.fail, left, out') →
        left = request := by
  obtain ⟨hfd, hholds⟩ := holdsStream_reachable hs
  refine ⟨hholds.bufferIsStream, ?_, ?_⟩
  · intro fuel locals table tr outcome hrun
    exact run_processJob_stream hfd hholds hrun
  · intro request left out out' hparse
    exact (parseRequestString_fail hparse).1

theorem requestBuffer_isStream_oneChunk :
    ∃ job, job.clientSocketFd = 5 ∧ BufferIsStream job (text "GET") := by
  let left := receiveRequest (jobConstruct 5) (text "GET") 100
  have hholds : Holds left (text "GET") := (holds_jobConstruct 5).receive (by decide) 100
  have hline : lf ∉ cstr left.request 0 := by
    rw [hholds.string (by decide)]
    decide
  have hrun : anything.Run () (processJob 0 ⟨false, .malformed, false, none⟩ [] (jobConstruct 5))
      [⟨.recv (.client 5) jobRequestBufferSize true, .data (text "GET") (by decide)⟩,
        ⟨.time, (100 : ℕ)⟩] () (.ok (.enqueue, left)) := by
    apply run_processJob_new (by decide) (by decide) (by decide) trivial trivial
    rw [parseJob_waits hline (by rw [hholds.requestTail]; decide)]
    exact .ret _
  have hinit : clientStream.Reachable (jobConstruct 5, []) := .init ⟨⟨5, by decide, rfl⟩, rfl⟩
  have hcall : clientStream.Reachable (left, text "GET") :=
    hinit.step ⟨⟨0, _, [], hrun⟩, by simp [streamOf, fromClient, RecvResult.bytes]⟩
  exact ⟨left, rfl, (requestBuffer_isStream hcall).1⟩

end HttpProxy
