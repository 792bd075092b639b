import HttpProxy.Traces

/-!
# No traffic for blocked hosts

The calls of `process_job`, read as a sequence: reading the request, resolving the host
and answering.  Only a host whose name is not in the block table and an address that is
not in it are ever handed on.
-/

namespace HttpProxy

open CString Interaction Protocol

variable {fuel : ℕ} {locals : Locals} {table : BlockTable} {job : Job} {hostname : List UInt8}
  {tr : Trace}

/-- The calls with which `process_job` gets the request from the client at `fd`. -/
def ReadsRequest (fd : ℤ) : Op → Prop
  | .time => True
  | .recv socket _ _ => socket = .client fd
  | _ => False

/-- The calls up to the parser, and the job whose request is then parsed: a prefetch job as it
is, a client's job with what it was sent. -/
inductive GetsRequest (job : Job) : Trace → Job → Prop
  | prefetch (hfd : job.clientSocketFd = -1) : GetsRequest job [] job
  | received (hfd : job.clientSocketFd ≠ -1) (bytes : List UInt8) (now : ℕ) (hne : bytes ≠ [])
      (hfits : bytes.length ≤ jobRequestBufferSize - job.requestTail) :
      GetsRequest job
        [⟨.recv (.client job.clientSocketFd) (jobRequestBufferSize - job.requestTail) true,
          .data bytes hfits⟩, ⟨.time, now⟩] (receiveRequest job bytes now)
  | inTime {tr : Trace} {held : Job} (now : ℕ) (hset : job.expirationTime ≠ 0)
      (hlive : unsignedTime now ≤ job.expirationTime) (h : GetsRequest job tr held) :
      GetsRequest job (⟨.time, now⟩ :: tr) held

/-- What `resolve_host` may do, with its result: the status and the address list. -/
inductive Resolved (table : BlockTable) (hostname : List UInt8) :
    Trace → HostStatus → List Address → Prop
  | nameBlocked (h : blockTableCheck table (splitHostname hostname).1 = true) :
      Resolved table hostname [] .blocked []
  | notFound (service : List UInt8)
      (h : blockTableCheck table (splitHostname hostname).1 = false) :
      Resolved table hostname [⟨.getaddrinfo (splitHostname hostname).1 service, none⟩] .notFound []
  | allBlocked (service : List UInt8) (addresses : { l : List Address // l ≠ [] })
      (h : blockTableCheck table (splitHostname hostname).1 = false)
      (hall : ∀ address ∈ addresses.val, blockTableCheck table (inetNtop address) = true) :
      Resolved table hostname
        [⟨.getaddrinfo (splitHostname hostname).1 service, some addresses⟩,
          ⟨.freeaddrinfo addresses.val, ()⟩] .blocked []
  | found (service : List UInt8) (addresses : { l : List Address // l ≠ [] })
      (skipped : List Address) (address : Address) (rest : List Address)
      (h : blockTableCheck table (splitHostname hostname).1 = false)
      (hsplit : addresses.val = skipped ++ address :: rest)
      (hskipped : ∀ a ∈ skipped, blockTableCheck table (inetNtop a) = true)
      (haddress : blockTableCheck table (inetNtop address) = false) :
      Resolved table hostname
        [⟨.getaddrinfo (splitHostname hostname).1 service, some addresses⟩] .ok (address :: rest)

/-- How a supported request is answered, once its host has been resolved. -/
inductive AnswerTrace (fuel : ℕ) (locals : Locals) (job : Job) (parsed : ParseOut)
    (version : List UInt8) : HostStatus → List Address → Trace → Prop
  | refused {status : HostStatus} {addresses : List Address} {tr : Trace}
      (hstatus : parsed.isGet = true → status ≠ .ok)
      (hsends : ∀ e ∈ tr, SendsTo (.client job.clientSocketFd) e.1)
      (hforbidden : parsed.isGet = true → status = .blocked →
        bytesSent (.client job.clientSocketFd) tr <+:
          version ++ text "403 Forbidden\r\n" ++ closeHeader parsed.proxyKeepAlive) :
      AnswerTrace fuel locals job parsed version status addresses
        (tr ++ [⟨.freeaddrinfo addresses, ()⟩])
  | handled {address : Address} {rest : List Address} {tr released : Trace}
      {out : Except Fault Status} (hget : parsed.isGet = true)
      (hrun : anything.Run () (handleValidRequest fuel locals.cacheFile job address
        (cstr parsed.path 0) (cstr parsed.hostname 0)) tr () out)
      (hreleased : ∀ e ∈ released, e.1 = .freeaddrinfo (address :: rest)) :
      AnswerTrace fuel locals job parsed version .ok (address :: rest) (tr ++ released)

/-- What `process_job` may do with a job: the request that is parsed is the job's, the host
that is resolved is that request's, and the client that is answered is the job's. -/
inductive JobTrace (fuel : ℕ) (locals : Locals) (table : BlockTable) (job : Job) : Trace → Prop
  | unanswered {tr : Trace} (htr : ∀ e ∈ tr, ReadsRequest job.clientSocketFd e.1) :
      JobTrace fuel locals table job tr
  | rejected {held : Job} {pre tr : Trace} {parsed : Status × List UInt8 × ParseOut}
      (hpre : GetsRequest job pre held)
      (hparse : parseRequestString held.request locals.parseOut = .ok parsed)
      (hversion : parsed.1 = .fail ∨ parsed.2.2.version = .malformed ∨
        parsed.2.2.version = .notSupported)
      (htr : ∀ e ∈ tr, SendsTo (.client job.clientSocketFd) e.1) :
      JobTrace fuel locals table job (pre ++ tr)
  | answered {held : Job} {pre resolving tr : Trace} {parsed : Status × List UInt8 × ParseOut}
      {version : List UInt8} {status : HostStatus} {addresses : List Address}
      (hpre : GetsRequest job pre held)
      (hparse : parseRequestString held.request locals.parseOut = .ok parsed)
      (hversion : parsed.2.2.version = .dotZero ∧ version = text "HTTP/1.0 " ∨
        parsed.2.2.version = .dotOne ∧ version = text "HTTP/1.1 ")
      (hresolved : Resolved table (cstr parsed.2.2.hostname 0) resolving status addresses)
      (hanswer : AnswerTrace fuel locals { held with request := parsed.2.1 } parsed.2.2 version
        status addresses tr) :
      JobTrace fuel locals table job (pre ++ (resolving ++ tr))

theorem GetsRequest.clientSocketFd {held : Job} (h : GetsRequest job tr held) :
    held.clientSocketFd = job.clientSocketFd := by
  induction h with
  | prefetch => rfl
  | received => rfl
  | inTime _ _ _ _ ih => exact ih

theorem GetsRequest.readsRequest {held : Job} (h : GetsRequest job tr held) :
    ∀ e ∈ tr, ReadsRequest job.clientSocketFd e.1 := by
  induction h with
  | prefetch => simp
  | received => simp [ReadsRequest]
  | inTime now _ _ _ ih => exact List.forall_mem_cons.mpr ⟨trivial, ih⟩

/-! ## Resolving -/

theorem run_checkAddresses {σ : Type} {P : Protocol Resp σ} {s s' : σ} {head l : List Address}
    {out : Except Fault (HostStatus × List Address)} (hl : l ≠ [])
    (h : P.Run s (checkAddresses table head l) tr s' out) :
    (∃ skipped address rest, l = skipped ++ address :: rest ∧
        (∀ a ∈ skipped, blockTableCheck table (inetNtop a) = true) ∧
        blockTableCheck table (inetNtop address) = false ∧ tr = [] ∧
        out = .ok (.ok, address :: rest)) ∨
      (∀ a ∈ l, blockTableCheck table (inetNtop a) = true) ∧
        tr = [⟨.freeaddrinfo head, ()⟩] ∧ out = .ok (.blocked, []) := by
  induction l with
  | nil => exact absurd rfl hl
  | cons address rest ih =>
      unfold checkAddresses at h
      split at h
      next hblocked =>
        cases rest with
        | nil =>
            simp only [freeaddrinfo_bind, run_call] at h
            obtain ⟨⟨⟩, tr, -, rfl, h⟩ := h
            obtain ⟨rfl, -, rfl⟩ := run_ret.mp h
            exact .inr ⟨by simpa using hblocked, rfl, rfl⟩
        | cons next rest =>
            rcases ih (by simp) h with ⟨skipped, a, tail, hsplit, hskipped, ha, rfl, rfl⟩ |
              ⟨hall, rfl, rfl⟩
            · refine .inl ⟨address :: skipped, a, tail, by simp [hsplit], ?_, ha, rfl, rfl⟩
              exact List.forall_mem_cons.mpr ⟨hblocked, hskipped⟩
            · exact .inr ⟨List.forall_mem_cons.mpr ⟨hblocked, hall⟩, rfl, rfl⟩
      next hallowed =>
        obtain ⟨rfl, -, rfl⟩ := run_ret.mp h
        exact .inl ⟨[], address, rest, rfl, by simp, by simpa using hallowed, rfl, rfl⟩

/-- The walk stops at the first address that is not blocked. -/
theorem checkAddresses_skip {head skipped rest : List Address} {address : Address}
    (hskipped : ∀ a ∈ skipped, blockTableCheck table (inetNtop a) = true)
    (haddress : blockTableCheck table (inetNtop address) = false) :
    checkAddresses table head (skipped ++ address :: rest) = .ret (.ok, address :: rest) := by
  induction skipped with
  | nil =>
      have hfree : ¬blockTableCheck table (inetNtop address) = true := by
        rw [haddress]
        decide
      rw [List.nil_append]
      unfold checkAddresses
      exact if_neg hfree
  | cons first skipped ih =>
      have hrest := ih fun a ha ↦ hskipped a (List.mem_cons_of_mem _ ha)
      obtain ⟨second, more, hmore⟩ :
          ∃ second more, skipped ++ address :: rest = second :: more := by
        cases skipped with
        | nil => exact ⟨_, _, rfl⟩
        | cons second skipped => exact ⟨_, _, rfl⟩
      rw [hmore] at hrest
      rw [List.cons_append, hmore]
      unfold checkAddresses
      rwa [if_pos (hskipped first List.mem_cons_self)]

theorem run_resolveHost {σ : Type} {P : Protocol Resp σ} {s s' : σ}
    {out : Except Fault (HostStatus × List Address)}
    (h : P.Run s (resolveHost table hostname) tr s' out) :
    ∃ status addresses, Resolved table hostname tr status addresses ∧
      out = .ok (status, addresses) := by
  unfold resolveHost at h
  split at h
  next hname =>
    obtain ⟨rfl, -, rfl⟩ := run_ret.mp h
    exact ⟨_, _, .nameBlocked hname, rfl⟩
  next hname =>
    have hname : blockTableCheck table (splitHostname hostname).1 = false := by simpa using hname
    simp only [getaddrinfo_bind, run_call] at h
    obtain ⟨resolved, tr, -, rfl, h⟩ := h
    cases resolved with
    | none =>
        obtain ⟨rfl, -, rfl⟩ := run_ret.mp h
        exact ⟨_, _, .notFound _ hname, rfl⟩
    | some addresses =>
        rcases run_checkAddresses addresses.property h with
          ⟨skipped, a, rest, hsplit, hskipped, ha, rfl, rfl⟩ | ⟨hall, rfl, rfl⟩
        · exact ⟨_, _, .found _ addresses skipped a rest hname hsplit hskipped ha, rfl⟩
        · exact ⟨_, _, .allBlocked _ addresses hname hall, rfl⟩

/-- The name is in the table, or every address the resolver answered with is. -/
def HostBlocked (table : BlockTable) (hostname : List UInt8) (tr : Trace) : Prop :=
  blockTableCheck table (splitHostname hostname).1 = true ∨
    ∃ (name service : List UInt8) (addresses : { l : List Address // l ≠ [] }),
      ⟨.getaddrinfo name service, some addresses⟩ ∈ tr ∧
        ∀ address ∈ addresses.val, blockTableCheck table (inetNtop address) = true

theorem Resolved.of_hostBlocked {status : HostStatus} {addresses : List Address}
    (h : Resolved table hostname tr status addresses) (hblocked : HostBlocked table hostname tr) :
    status = .blocked ∧ addresses = [] := by
  cases h with
  | nameBlocked hname => exact ⟨rfl, rfl⟩
  | allBlocked => exact ⟨rfl, rfl⟩
  | notFound service hname =>
      rcases hblocked with hname' | ⟨name, service', addresses, hmem, -⟩
      · simp [hname] at hname'
      · simp at hmem
  | found service answered skipped address rest hname hsplit hskipped haddress =>
      rcases hblocked with hname' | ⟨name, service', addresses, hmem, hall⟩
      · simp [hname] at hname'
      · simp only [List.mem_singleton, Sigma.mk.injEq, Op.getaddrinfo.injEq] at hmem
        obtain ⟨⟨rfl, rfl⟩, hmem⟩ := hmem
        obtain rfl : addresses = answered := by simpa using hmem
        have := hall address (by simp [hsplit])
        simp [haddress] at this

/-! ## Answering -/

theorem run_sendReply {reply : List UInt8} {addresses : List Address} {out : Except Fault Unit}
    (h : anything.Run () (sendReply job addresses reply) tr () out) :
    ∃ sends, tr = sends ++ [⟨.freeaddrinfo addresses, ()⟩] ∧
      (∀ e ∈ sends, SendsTo (.client job.clientSocketFd) e.1) ∧
      bytesSent (.client job.clientSocketFd) sends <+: reply := by
  obtain ⟨status, sends, ⟨⟩, tr', hrun, hfree, rfl⟩ := run_trySendInChunks_bind h
  obtain ⟨hto, hpre, -⟩ := run_trySendInChunks hrun
  refine ⟨sends, ?_, hto, by simpa using hpre⟩
  simp only [freeaddrinfo, Prog.perform, run_call, run_ret] at hfree
  obtain ⟨⟨⟩, tr, -, rfl, rfl, -⟩ := hfree
  rfl

theorem run_answerRequest {parsed : ParseOut} {version : List UInt8} {out : Except Fault Unit}
    (h : anything.Run () (answerRequest fuel locals table job parsed version) tr () out) :
    ∃ resolving answer status addresses, tr = resolving ++ answer ∧
      Resolved table (cstr parsed.hostname 0) resolving status addresses ∧
      AnswerTrace fuel locals job parsed version status addresses answer := by
  rcases Run.bind_cases h with ⟨e, hrun, -⟩ | ⟨resolved, resolving, ⟨⟩, tr', hrun, h, rfl⟩
  · obtain ⟨status, addresses, -, hout⟩ := run_resolveHost hrun
    simp at hout
  · obtain ⟨status, addresses, hresolved, hout⟩ := run_resolveHost hrun
    simp only [Except.ok.injEq] at hout
    subst hout
    refine ⟨resolving, tr', status, addresses, rfl, hresolved, ?_⟩
    simp only at h
    split at h
    next hget =>
      obtain ⟨sends, rfl, hto, -⟩ := run_sendReply h
      exact .refused (by simp [hget]) hto (by simp [hget])
    next hget =>
      have hget : parsed.isGet = true := by simpa using hget
      cases hresolved with
      | nameBlocked =>
          obtain ⟨sends, rfl, hto, hpre⟩ := run_sendReply h
          exact .refused (by simp) hto fun _ _ ↦ hpre
      | allBlocked =>
          obtain ⟨sends, rfl, hto, hpre⟩ := run_sendReply h
          exact .refused (by simp) hto fun _ _ ↦ hpre
      | notFound =>
          obtain ⟨sends, rfl, hto, -⟩ := run_sendReply h
          exact .refused (by simp) hto (by simp)
      | found service answered skipped address rest =>
          simp only at h
          rcases Run.bind_cases h with ⟨e, hrun, -⟩ | ⟨result, handling, ⟨⟩, tr'', hrun, hfree, rfl⟩
          · have hnothing : ∀ e ∈ ([] : Trace), e.1 = .freeaddrinfo (address :: rest) := by simp
            have htrace : AnswerTrace fuel locals job parsed version .ok (address :: rest)
                (tr' ++ []) := .handled hget hrun hnothing
            simpa using htrace
          · apply AnswerTrace.handled hget hrun
            simp only [freeaddrinfo, Prog.perform, run_call, run_ret] at hfree
            obtain ⟨⟨⟩, tr, -, rfl, rfl, -⟩ := hfree
            simp

/-! ## The job -/

theorem run_rejected {reply : List UInt8} {out : Except Fault Unit}
    (h : anything.Run () (do
      let _ ← trySendInChunks (.client job.clientSocketFd) reply reply.length
      .ret ()) tr () out) :
    ∀ e ∈ tr, SendsTo (.client job.clientSocketFd) e.1 := by
  obtain ⟨status, sends, ⟨⟩, tr', hrun, hend, rfl⟩ := run_trySendInChunks_bind h
  obtain ⟨rfl, -⟩ := run_ret.mp hend
  rw [List.append_nil]
  exact (run_trySendInChunks hrun).1

theorem run_respond {held : Job} {parsed : Status × List UInt8 × ParseOut} {version : HttpVersion}
    {pre : Trace} {out : Except Fault Unit} (hpre : GetsRequest job pre held)
    (hparse : parseRequestString held.request locals.parseOut = .ok parsed)
    (hversion : version = if parsed.1 = .fail then .malformed else parsed.2.2.version)
    (h : anything.Run () (respond fuel locals table { held with request := parsed.2.1 } parsed.2.2
      version) tr () out) :
    JobTrace fuel locals table job (pre ++ tr) := by
  have hbad (hbad : version = .malformed ∨ version = .notSupported) :
      parsed.1 = .fail ∨ parsed.2.2.version = .malformed ∨ parsed.2.2.version = .notSupported := by
    by_cases hfail : parsed.1 = .fail
    · exact .inl hfail
    · rw [if_neg hfail] at hversion
      exact .inr (by rwa [hversion] at hbad)
  have hgood (hmal : version ≠ .malformed) : parsed.2.2.version = version := by
    by_cases hfail : parsed.1 = .fail
    · rw [if_pos hfail] at hversion
      exact absurd hversion hmal
    · rw [if_neg hfail] at hversion
      exact hversion.symm
  have hclient : Socket.client held.clientSocketFd = .client job.clientSocketFd := by
    rw [hpre.clientSocketFd]
  cases version with
  | malformed => exact .rejected hpre hparse (hbad (.inl rfl)) (hclient ▸ run_rejected h)
  | notSupported => exact .rejected hpre hparse (hbad (.inr rfl)) (hclient ▸ run_rejected h)
  | dotZero =>
      obtain ⟨resolving, answer, status, addresses, rfl, hresolved, hanswer⟩ := run_answerRequest h
      exact .answered hpre hparse (.inl ⟨hgood (by simp), rfl⟩) hresolved hanswer
  | dotOne =>
      obtain ⟨resolving, answer, status, addresses, rfl, hresolved, hanswer⟩ := run_answerRequest h
      exact .answered hpre hparse (.inr ⟨hgood (by simp), rfl⟩) hresolved hanswer

theorem run_parseJob {held : Job} {out : Except Fault (JobStatus × Job)} {pre : Trace}
    (hpre : GetsRequest job pre held)
    (h : anything.Run () (parseJob fuel locals table held) tr () out) :
    JobTrace fuel locals table job (pre ++ tr) := by
  cases run_parseJob_cases h with
  | faults => exact .unanswered (by simpa using hpre.readsRequest)
  | waits => exact .unanswered (by simpa using hpre.readsRequest)
  | responds parsed responded hparse hrun => exact run_respond hpre hparse rfl hrun

theorem run_readAndParseJob {out : Except Fault (JobStatus × Job)}
    (h : anything.Run () (readAndParseJob fuel locals table job) tr () out) :
    JobTrace fuel locals table job tr := by
  cases run_readAndParseJob_cases h with
  | prefetch hfd hrun => exact run_parseJob (.prefetch hfd) hrun
  | noData => exact .unanswered (by simp [ReadsRequest])
  | closed => exact .unanswered (by simp [ReadsRequest])
  | data hfd bytes now hne hfits hbytes htime hrun =>
      exact run_parseJob (.received hfd bytes now hne hfits) hrun

/-- A job whose deadline is not over is read and parsed like one without a deadline. -/
theorem JobTrace.inTime {now : ℕ} (hset : job.expirationTime ≠ 0)
    (hlive : unsignedTime now ≤ job.expirationTime) (h : JobTrace fuel locals table job tr) :
    JobTrace fuel locals table job (⟨.time, now⟩ :: tr) := by
  cases h with
  | unanswered htr => exact .unanswered (List.forall_mem_cons.mpr ⟨trivial, htr⟩)
  | rejected hpre hparse hversion htr =>
      rw [← List.cons_append]
      exact .rejected (.inTime now hset hlive hpre) hparse hversion htr
  | answered hpre hparse hversion hresolved hanswer =>
      rw [← List.cons_append]
      exact .answered (.inTime now hset hlive hpre) hparse hversion hresolved hanswer

/-- `process_job` hands a request on only if the name of its host is not blocked, and
then with the first address that is not; a blocked host gets the 403 reply and nothing
else. -/
theorem blocked_host_gets_no_traffic (table : BlockTable) :
    (∀ (hostname : List UInt8) (tr : Trace) (out : Except Fault (HostStatus × List Address)),
      anything.Run () (resolveHost table hostname) tr () out → HostBlocked table hostname tr →
        out = .ok (.blocked, [])) ∧
    ∀ (fuel : ℕ) (locals : Locals) (job : Job) (tr : Trace)
      (out : Except Fault (JobStatus × Job)),
      anything.Run () (processJob fuel locals table job) tr () out →
        JobTrace fuel locals table job tr := by
  constructor
  · intro hostname tr out h hblocked
    obtain ⟨status, addresses, hresolved, rfl⟩ := run_resolveHost h
    obtain ⟨rfl, rfl⟩ := hresolved.of_hostBlocked hblocked
    rfl
  · intro fuel locals job tr out h
    rcases run_processJob_cases h with ⟨-, hread⟩ | ⟨hset, now, tr, -, rfl, hclock⟩
    · exact run_readAndParseJob hread
    · rcases hclock with ⟨-, rfl, -⟩ | ⟨hlive, hread⟩
      · exact .unanswered (by simp [ReadsRequest])
      · exact (run_readAndParseJob hread).inTime hset hlive

/-- A prefetch job for a blocked host only releases its empty address list. -/
theorem blocked_host_gets_no_traffic_prefetch :
    JobTrace 0 ⟨false, .malformed, false, none⟩ [text "a"]
      { jobConstruct (-1) with request := text "GET http://a/ HTTP/1.1\n" ++ [0] }
      [⟨.freeaddrinfo [], ()⟩] := by
  let locals : Locals := ⟨false, .malformed, false, none⟩
  let job : Job := { jobConstruct (-1) with
    request := text "GET http://a/ HTTP/1.1\n" ++ [0] }
  let request : List UInt8 := text "GET http://a/ HTTP/1.1" ++ [0, 0]
  let out : ParseOut :=
    ⟨true, text "a" ++ List.replicate maxNameLength 0, text "/" ++ List.replicate maxUrlSize 0,
      .dotOne, false⟩
  have hparse : parseRequestString job.request locals.parseOut = .ok (.success, request, out) := by
    decide +kernel
  have hrun : processJob 0 locals [text "a"] job =
      .call (.freeaddrinfo []) fun _ ↦ .ret (.terminate, { job with request := request }) := by
    have hblocked : blockTableCheck [text "a"] (splitHostname (cstr out.hostname 0)).1 = true := by
      decide +kernel
    have hfd : job.clientSocketFd = -1 := rfl
    have htime : job.expirationTime = 0 := rfl
    have hversion : (if Status.success = .fail then .malformed else out.version) =
        HttpVersion.dotOne := rfl
    simp only [processJob, if_pos htime, readAndParseJob, if_pos hfd, parseJob, hparse,
      Prog.lift_ok, Prog.ret_bind]
    rw [if_neg (by simp), hversion]
    simp only [respond, answerRequest, resolveHost, if_pos hblocked, Prog.ret_bind]
    rfl
  refine (blocked_host_gets_no_traffic [text "a"]).2 0 locals job _ (.ok (.terminate,
    { job with request := request })) ?_
  rw [hrun]
  exact .call trivial (.ret _)

end HttpProxy
