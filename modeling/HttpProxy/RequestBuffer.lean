import HttpProxy.RequestText
import HttpProxy.Traces

/-!
# The request buffer

The bytes a client has sent so far stand at the start of a buffer that is otherwise NUL, so
that the parser sees them as one text.
-/

namespace HttpProxy

open CString Fallible Interaction Protocol

variable {job : Job} {fuel : ℕ} {locals : Locals} {table : BlockTable} {held more : List UInt8}

/-! ## What the parser leaves -/

theorem copyName_length {dst src dst' : List UInt8} {n i : ℤ}
    (h : copyName dst src n i = .ok dst') : dst'.length = dst.length := by
  obtain ⟨hn, -, rfl⟩ := copyName_ok h
  rw [List.length_set, length_strncpy (by omega)]

theorem captureHost_length {request hostname hostname' : List UInt8} {dividerA dividerB : ℕ}
    (h : captureHost request dividerA dividerB hostname = .ok hostname') :
    hostname'.length = hostname.length := by
  unfold captureHost at h
  split at h
  · cases h
  · exact copyName_length h

theorem parseHeaders_hostname_length {request : List UInt8} {dividerA : ℕ} {out out' : ParseOut}
    (h : parseHeaders fuel request dividerA out = .ok out') :
    out'.hostname.length = out.hostname.length := by
  induction fuel generalizing dividerA out with
  | zero => cases h
  | succ fuel ih =>
      simp only [parseHeaders] at h
      split at h
      · cases h
        rfl
      · split at h
        · have hrest := ih h
          exact hrest
        · split at h
          · obtain ⟨hostname, hcapture, h⟩ := bind_eq_ok.mp h
            exact (ih h).trans (captureHost_length hcapture)
          · exact ih h

theorem copyUrl_hostname_length {request : List UInt8} {dividerA : ℕ} {out out' : ParseOut}
    (h : copyUrl request dividerA out = .ok out') :
    out'.hostname.length = out.hostname.length := by
  unfold copyUrl at h
  split at h
  · cases h
    rfl
  · split at h
    · cases h
    · obtain ⟨hostname, hcopy, h⟩ := bind_eq_ok.mp h
      obtain ⟨path, -, h⟩ := bind_eq_ok.mp h
      obtain ⟨path', -, h⟩ := bind_eq_ok.mp h
      cases h
      exact copyName_length hcopy

/-- The parser keeps the size of the host buffer, and it fails only without a line feed. -/
theorem parseRequestString_ok {request : List UInt8} {out : ParseOut}
    {parsed : Status × List UInt8 × ParseOut} (h : parseRequestString request out = .ok parsed) :
    parsed.2.2.hostname.length = out.hostname.length ∧
      (parsed.1 = .success ∨ lf ∉ cstr request 0) := by
  unfold parseRequestString at h
  split at h
  next hnone =>
    cases h
    refine ⟨rfl, .inr ?_⟩
    rw [strchr_of_ne_zero (by decide), Option.map_eq_none_iff] at hnone
    exact List.idxOf?_eq_none_iff.mp hnone
  next endOfFirstLine _ =>
    simp only at h
    split at h
    · cases h
      exact ⟨rfl, .inl rfl⟩
    · split at h
      · cases h
        exact ⟨rfl, .inl rfl⟩
      · split at h
        · cases h
          exact ⟨rfl, .inl rfl⟩
        · unfold parseUrlAndHeaders at h
          split at h
          · cases h
          · simp only at h
            split at h
            · cases h
              exact ⟨rfl, .inl rfl⟩
            · obtain ⟨out₁, hurl, h⟩ := bind_eq_ok.mp h
              obtain ⟨out₂, hheaders, h⟩ := bind_eq_ok.mp h
              cases h
              refine ⟨?_, .inl rfl⟩
              have hcopied := copyUrl_hostname_length hurl
              have hlines := parseHeaders_hostname_length hheaders
              exact hlines.trans hcopied

theorem Locals.hostname_length (locals : Locals) :
    locals.parseOut.hostname.length = maxNameLength + 1 := by
  simp only [Locals.parseOut, List.length_replicate]

/-! ## What the buffer holds -/

/-- The buffer of the job holds the bytes and nothing else. -/
structure Holds (job : Job) (held : List UInt8) : Prop where
  request : job.request = held ++ 0 :: List.replicate (jobRequestBufferSize - held.length) 0
  requestTail : job.requestTail = held.length
  fits : held.length ≤ jobRequestBufferSize

theorem holds_jobConstruct (fd : ℤ) : Holds (jobConstruct fd) [] := ⟨rfl, rfl, Nat.zero_le _⟩

theorem Holds.receive (h : Holds job held)
    (hfits : more.length ≤ jobRequestBufferSize - job.requestTail) (now : ℕ) :
    Holds (receiveRequest job more now) (held ++ more) := by
  have hheld := h.fits
  rw [h.requestTail] at hfits
  refine ⟨?_, ?_, by simp; omega⟩
  · obtain ⟨left, hleft⟩ : ∃ left, jobRequestBufferSize - held.length = more.length + left :=
      ⟨_, (Nat.add_sub_of_le hfits).symm⟩
    have hrest : jobRequestBufferSize - (held ++ more).length = left := by
      simp only [List.length_append]
      omega
    have hdrop : (held ++ 0 :: List.replicate (jobRequestBufferSize - held.length) 0).drop
        (held.length + more.length) = 0 :: List.replicate left 0 := by
      rw [← List.drop_drop, List.drop_left, ← List.replicate_succ, List.drop_replicate,
        ← List.replicate_succ]
      congr 1
      omega
    simp only [receiveRequest, h.request, h.requestTail, List.take_left, hdrop, hrest]
  · simp [receiveRequest, h.requestTail]

theorem Holds.string (h : Holds job held) (hnul : 0 ∉ held) : cstr job.request 0 = held := by
  rw [h.request, cstr_append_nul hnul]

/-- The parser reads the bytes that the buffer holds. -/
theorem Holds.parse (h : Holds job held) (hnul : 0 ∉ held) (out : ParseOut) :
    (parseRequestString job.request out).map (fun result ↦ (result.1, result.2.2)) =
      parseText held out := by
  rw [h.request, parseRequestString_eq _ _ hnul]

theorem Holds.exists_parse {β : Type} {f : ParseOut → β} {b : β} {out : ParseOut}
    (h : Holds job held) (hnul : 0 ∉ held)
    (htext : (parseText held out).map (fun parsed ↦ (parsed.1, f parsed.2)) = .ok (.success, b)) :
    ∃ left out', parseRequestString job.request out = .ok (.success, left, out') ∧ f out' = b := by
  rw [← h.parse hnul out] at htext
  cases hparsed : parseRequestString job.request out with
  | error fault => simp [hparsed, Except.map] at htext
  | ok parsed =>
      obtain ⟨status, left, out'⟩ := parsed
      simp only [hparsed, Except.map, Except.ok.injEq, Prod.mk.injEq] at htext
      obtain ⟨rfl, hout⟩ := htext
      exact ⟨left, out', rfl, hout⟩

/-- What the parser says about a request, without the texts it copies. -/
def ParseOut.flags (out : ParseOut) : Bool × HttpVersion × Bool :=
  (out.isGet, out.version, out.proxyKeepAlive)

/-- Without a complete first line the job waits. -/
theorem parseJob_waits (hline : lf ∉ cstr job.request 0)
    (htail : job.requestTail ≠ jobRequestBufferSize - 1) :
    parseJob fuel locals table job = .ret (.enqueue, job) := by
  have hparse : parseRequestString job.request locals.parseOut =
      .ok (.fail, job.request, locals.parseOut) := by
    rw [parseRequestString, strchr_eq_none (by decide) hline]
  rw [parseJob, hparse, Prog.lift_ok, Prog.ret_bind, if_pos ⟨rfl, htail⟩]

/-- A job that is to wait is left with the request as the parser leaves it. -/
theorem run_parseJob_enqueue {σ : Type} {P : Protocol Resp σ} {s s' : σ} {tr : Trace} {left : Job}
    (h : P.Run s (parseJob fuel locals table job) tr s' (.ok (.enqueue, left))) :
    tr = [] ∧ ∃ request out, parseRequestString job.request locals.parseOut =
      .ok (.fail, request, out) ∧ left = { job with request := request } := by
  generalize hout : Except.ok (JobStatus.enqueue, left) = outcome at h
  cases run_parseJob_cases h with
  | faults => cases hout
  | waits request out hparse =>
      cases hout
      exact ⟨rfl, request, out, hparse, rfl⟩
  | responds parsed responded => cases responded <;> cases hout

/-- With a complete first line it does not wait any more. -/
theorem run_parseJob_line {σ : Type} {P : Protocol Resp σ} {s s' : σ} {tr : Trace}
    {outcome : Except Fault (JobStatus × Job)} (hline : lf ∈ cstr job.request 0)
    (h : P.Run s (parseJob fuel locals table job) tr s' outcome) (left : Job) :
    outcome ≠ .ok (.enqueue, left) := by
  rintro rfl
  obtain ⟨-, request, out, hparse, -⟩ := run_parseJob_enqueue h
  have hstatus := (parseRequestString_ok hparse).2
  simp [hline] at hstatus

/-- The first call on a job does not look at the clock before it reads. -/
theorem processJob_new (fuel : ℕ) (locals : Locals) (table : BlockTable) (fd : ℤ) :
    processJob fuel locals table (jobConstruct fd) =
      readAndParseJob fuel locals table (jobConstruct fd) :=
  if_pos rfl

/-- The first call on a new client's job that receives some bytes. -/
theorem run_processJob_new {σ : Type} {P : Protocol Resp σ} {s s' : σ} {fuel now : ℕ}
    {locals : Locals} {table : BlockTable} {fd : ℤ} {bytes : List UInt8} {tr : Trace}
    {outcome : Except Fault (JobStatus × Job)} (hfd : fd ≠ -1) (hne : bytes ≠ [])
    (hfits : bytes.length ≤ jobRequestBufferSize)
    (hbytes : P.answers s (.recv (.client fd) jobRequestBufferSize true) (.data bytes hfits))
    (htime : P.answers (P.next s (.recv (.client fd) jobRequestBufferSize true)
      (.data bytes hfits)) .time now)
    (h : P.Run (P.next (P.next s (.recv (.client fd) jobRequestBufferSize true)
      (.data bytes hfits)) .time now)
        (parseJob fuel locals table (receiveRequest (jobConstruct fd) bytes now)) tr s' outcome) :
    P.Run s (processJob fuel locals table (jobConstruct fd))
      (⟨.recv (.client fd) jobRequestBufferSize true, .data bytes hfits⟩ :: ⟨.time, now⟩ :: tr) s'
      outcome := by
  rw [processJob_new, readAndParseJob,
    if_neg (show (jobConstruct fd).clientSocketFd ≠ -1 from hfd)]
  simp only [recv_bind, time_bind]
  refine run_call.mpr ⟨RecvResult.data bytes hfits, _, hbytes, rfl, ?_⟩
  rw [if_neg (by simp [RecvResult.length]), if_neg (by simpa [RecvResult.length] using hne)]
  exact run_call.mpr ⟨now, _, htime, rfl, h⟩

end HttpProxy
