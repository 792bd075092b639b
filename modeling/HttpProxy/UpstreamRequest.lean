import HttpProxy.AbsoluteRequest
import HttpProxy.RequestBuffer

/-!
# The request that is sent upstream

What a request looks up in the cache and sends to the server is made of its path and its host,
and neither of them has a line feed.
-/

namespace HttpProxy

open CString Interaction Protocol

variable {fuel : ℕ} {path hostname t rest left : List UInt8} {job : Job}
  {cacheFile : Option FileHandle} {locals : Locals} {table : BlockTable} {out' : ParseOut}
  {socket : Socket} {op : Op} {tr : Trace} {α β : Type}

/-- The cache lookup of a request, and what is exchanged with a server. -/
def Requests (path hostname : List UInt8) : Op → Prop
  | .cacheRecordGetOrCreate url => url = hostname ++ path ∧ 63 ∉ path
  | .send (.server _) bytes => bytes <:+ upstreamRequest path hostname
  | .recv (.server _) _ _ => True
  | _ => False

/-- The other calls. -/
def Quiet : Op → Prop
  | .cacheRecordGetOrCreate _ => False
  | .send (.server _) _ => False
  | .recv (.server _) _ _ => False
  | _ => True

def ReadsServer (fd : ℤ) (op : Op) : Prop := ∃ size dontWait, op = .recv (.server fd) size dontWait

/-- The calls of a relay from the server at `fd`. -/
def Relays (fd : ℤ) (op : Op) : Prop := Quiet op ∨ ReadsServer fd op

theorem ReadsServer.unique {fd fd' : ℤ} (h : ReadsServer fd op) (h' : ReadsServer fd' op) :
    fd = fd' := by
  obtain ⟨size, dontWait, rfl⟩ := h
  obtain ⟨_, _, ⟨⟩⟩ := h'
  rfl

theorem Relays.requests {fd : ℤ} (h : Relays fd op) : Quiet op ∨ Requests path hostname op := by
  refine h.imp_right ?_
  rintro ⟨size, dontWait, rfl⟩
  trivial

theorem quiet_of_sendsTo_client {fd : ℤ} (h : SendsTo (.client fd) op) : Quiet op := by
  rcases h with rfl | ⟨bytes, rfl⟩ <;> trivial

theorem quiet_of_scansLinks (h : ScansLinks op) : Quiet op := by
  cases op <;> trivial

/-! ## Calls that look nothing up -/

theorem sendToClient_quiet (fd : ℤ) (buffer : List UInt8) (length : ℤ) :
    (trySendInChunks (.client fd) buffer length).Calls Quiet :=
  (trySendInChunks_calls _ buffer length).mono fun _ ↦ quiet_of_sendsTo_client

theorem cacheAndSend_quiet (fd : ℤ) (cacheFile : Option FileHandle) (buffer : List UInt8)
    (length : ℤ) : (cacheAndSend (.client fd) cacheFile buffer length).Calls Quiet := by
  cases cacheFile with
  | none => exact sendToClient_quiet _ _ _
  | some file =>
      simp only [cacheAndSend]
      split
      · trivial
      · exact ⟨trivial, fun _ ↦ sendToClient_quiet _ _ _⟩

theorem closeIfOpen_quiet (cacheFile : Option FileHandle) :
    (closeIfOpen cacheFile).Calls Quiet := by
  cases cacheFile with
  | none => trivial
  | some file => exact ⟨trivial, fun _ ↦ trivial⟩

theorem dispatchPrefetchJobs_quiet (fuel : ℕ) (cacheFile : Option FileHandle)
    (hostname : List UInt8) : (dispatchPrefetchJobs fuel cacheFile hostname).Calls Quiet :=
  (dispatchPrefetchJobs_calls _ _ _).mono fun _ ↦ quiet_of_scansLinks

theorem relayLoop_relays (serverSocketFd fd : ℤ) (cacheFile : Option FileHandle)
    (contentLength contentRead : ℤ) :
    (relayLoop fuel serverSocketFd (.client fd) cacheFile contentLength contentRead).Calls
      (Relays serverSocketFd) := by
  induction fuel generalizing contentRead with
  | zero => trivial
  | succ fuel ih =>
      simp only [relayLoop]
      split
      · simp only [recv_bind, Prog.calls_call]
        refine ⟨.inr ⟨_, _, rfl⟩, fun received ↦ ?_⟩
        split
        · trivial
        · refine ((cacheAndSend_quiet _ _ _ _).mono fun _ ↦ .inl).bind fun result ↦ ?_
          split
          · trivial
          · exact ih _
      · trivial

theorem relayRest_relays (serverSocketFd fd : ℤ) (cacheFile : Option FileHandle)
    (lengths : ℤ × ℤ) (bytesRead : ℤ) :
    (relayRest fuel serverSocketFd (.client fd) cacheFile lengths bytesRead).Calls
      (Relays serverSocketFd) := by
  unfold relayRest
  split
  · trivial
  · split
    · exact relayLoop_relays _ _ _ _ _
    · trivial

theorem finishRelay_quiet (job : Job) (grant : Grant) (cacheFile : Option FileHandle)
    (hostname : List UInt8) : (finishRelay fuel job grant cacheFile hostname).Calls Quiet := by
  cases grant with
  | unavailable record => trivial
  | shouldRead record => trivial
  | shouldWrite record =>
      have hdispatch : (dispatchForClient fuel job cacheFile hostname).Calls Quiet := by
        unfold dispatchForClient
        split
        · exact dispatchPrefetchJobs_quiet _ _ _
        · trivial
      refine (hdispatch.bind fun _ ↦ ?_).bind fun _ ↦ trivial
      cases cacheFile with
      | none => trivial
      | some file => exact ⟨trivial, fun _ ↦ ⟨trivial, fun _ ↦ trivial⟩⟩

theorem relayResponse_relays (job : Job) (grant : Grant) (cacheFile : Option FileHandle)
    (serverSocketFd : ℤ) (hostname : List UInt8) :
    (relayResponse fuel job grant cacheFile serverSocketFd hostname).Calls
      (Relays serverSocketFd) := by
  simp only [relayResponse, recv_bind, Prog.calls_call]
  refine ⟨.inr ⟨_, _, rfl⟩, fun received ↦ ?_⟩
  cases parseResponseHeader (responseBuffer received.bytes) with
  | error fault => trivial
  | ok lengths =>
      refine ((cacheAndSend_quiet _ _ _ _).mono fun _ ↦ .inl).bind fun result ↦ ?_
      split
      · trivial
      · refine (relayRest_relays _ _ _ _ _).bind fun _ ↦ ?_
        exact ⟨.inl trivial, fun _ ↦ (finishRelay_quiet _ _ _ _).mono fun _ ↦ .inl⟩

theorem serveCached_quiet (job : Job) (record : RecordRef) (cacheFile : FileHandle)
    (hostname : List UInt8) : (serveCached fuel job record cacheFile hostname).Calls Quiet := by
  have hsend (fuel : ℕ) :
      (sendCachedLoop fuel (.client job.clientSocketFd) cacheFile).Calls Quiet := by
    induction fuel with
    | zero => trivial
    | succ fuel ih =>
        simp only [sendCachedLoop, fread_bind, Prog.calls_call]
        refine ⟨trivial, fun bytes ↦ ?_⟩
        split
        · trivial
        · refine (sendToClient_quiet _ _ _).bind fun result ↦ ?_
          split
          · trivial
          · exact ih
  refine (hsend fuel).bind fun result ↦ ?_
  split
  · exact ⟨trivial, fun _ ↦ ⟨trivial, fun _ ↦ trivial⟩⟩
  · refine (dispatchPrefetchJobs_quiet _ _ _).bind fun _ ↦ ?_
    exact ⟨trivial, fun _ ↦ ⟨trivial, fun _ ↦ trivial⟩⟩

theorem checkAddresses_quiet (table : BlockTable) (head l : List Address) :
    (checkAddresses table head l).Calls Quiet := by
  induction l with
  | nil => trivial
  | cons address rest ih =>
      unfold checkAddresses
      split
      · cases rest with
        | nil => exact ⟨trivial, fun _ ↦ trivial⟩
        | cons next rest => exact ih
      · trivial

theorem resolveHost_quiet (table : BlockTable) (hostname : List UInt8) :
    (resolveHost table hostname).Calls Quiet := by
  unfold resolveHost
  split
  · trivial
  · simp only [getaddrinfo_bind, Prog.calls_call]
    refine ⟨trivial, fun resolved ↦ ?_⟩
    cases resolved with
    | none => trivial
    | some addresses => exact checkAddresses_quiet _ _ _

theorem sendReply_quiet (job : Job) (addresses : List Address) (reply : List UInt8) :
    (sendReply job addresses reply).Calls Quiet :=
  (sendToClient_quiet _ _ _).bind fun _ ↦ ⟨trivial, fun _ ↦ trivial⟩

/-! ## The calls of a request -/

theorem sendUpstream_requests (fd : ℤ) (path hostname : List UInt8) :
    (trySendInChunks (.server fd) (upstreamRequest path hostname)
      (upstreamRequest path hostname).length).Calls
        fun op ↦ Quiet op ∨ Requests path hostname op := by
  unfold trySendInChunks
  split
  · trivial
  · rw [Int.toNat_natCast, List.take_length]
    refine (sendLoop_sends _ _ _).mono fun op hop ↦ ?_
    rcases hop with rfl | ⟨rest, rfl, hrest⟩
    · exact .inl trivial
    · exact .inr hrest

theorem fetch_requests (job : Job) (grant : Grant) (cacheFile : Option FileHandle)
    (serverAddress : Address) (path hostname : List UInt8) :
    (fetch fuel job grant cacheFile serverAddress path hostname).Calls
      fun op ↦ Quiet op ∨ Requests path hostname op := by
  simp only [fetch, newSocket_bind, connect_bind, Prog.calls_call]
  refine ⟨.inl trivial, fun serverSocketFd ↦ ⟨.inl trivial, fun connected ↦ ?_⟩⟩
  have hclose : (closeIfOpen cacheFile >>= fun _ ↦ (.ret .fail : Worker Status)).Calls
      fun op ↦ Quiet op ∨ Requests path hostname op :=
    ((closeIfOpen_quiet cacheFile).mono fun _ ↦ .inl).bind fun _ ↦ trivial
  split
  · exact hclose
  · refine (sendUpstream_requests _ _ _).bind fun result ↦ ?_
    split
    · exact hclose
    · exact (relayResponse_relays _ _ _ _ _).mono fun _ ↦ Relays.requests

theorem serveGrant_requests (cacheFile : Option FileHandle) (job : Job) (grant : Grant)
    (serverAddress : Address) (path hostname : List UInt8) :
    (serveGrant fuel cacheFile job grant serverAddress path hostname).Calls
      fun op ↦ Quiet op ∨ Requests path hostname op := by
  unfold serveGrant
  split
  next =>
    cases grant.record with
    | none => trivial
    | some record => exact ⟨.inl trivial, fun _ ↦ trivial⟩
  next =>
    cases grant with
    | unavailable record => exact fetch_requests _ _ _ _ _ _
    | shouldRead record =>
        refine ⟨.inl trivial, fun opened ↦ ?_⟩
        cases opened with
        | none => exact fetch_requests _ _ _ _ _ _
        | some file => exact (serveCached_quiet _ _ _ _).mono fun _ ↦ .inl
    | shouldWrite record => exact ⟨.inl trivial, fun opened ↦ fetch_requests _ _ _ _ _ _⟩

/-- Serving a request looks nothing else up and sends nothing else to a server. -/
theorem handleValidRequest_requests (cacheFile : Option FileHandle) (job : Job)
    (serverAddress : Address) (path hostname : List UInt8) :
    (handleValidRequest fuel cacheFile job serverAddress path hostname).Calls
      fun op ↦ Quiet op ∨ Requests path hostname op := by
  unfold handleValidRequest
  split
  next => exact serveGrant_requests _ _ _ _ _ _
  next hquery => exact ⟨.inr ⟨rfl, hquery⟩, fun grant ↦ serveGrant_requests _ _ _ _ _ _⟩

theorem answerRequest_requests (job : Job) (out : ParseOut) (version : List UInt8) :
    (answerRequest fuel locals table job out version).Calls
      fun op ↦ Quiet op ∨ Requests (cstr out.path 0) (cstr out.hostname 0) op := by
  have hreply (addresses : List Address) (reply : List UInt8) :
      (sendReply job addresses reply).Calls
        fun op ↦ Quiet op ∨ Requests (cstr out.path 0) (cstr out.hostname 0) op :=
    (sendReply_quiet _ _ _).mono fun _ ↦ .inl
  refine ((resolveHost_quiet _ _).mono fun _ ↦ .inl).bind fun resolved ↦ ?_
  split
  · exact hreply _ _
  · obtain ⟨status, addresses⟩ := resolved
    cases status with
    | blocked => exact hreply _ _
    | notFound => exact hreply _ _
    | error => exact hreply _ _
    | ok =>
        cases addresses with
        | nil => trivial
        | cons address rest =>
            refine (handleValidRequest_requests _ _ _ _ _).bind fun _ ↦ ?_
            exact ⟨.inl trivial, fun _ ↦ trivial⟩

theorem respond_requests (job : Job) (out : ParseOut) (version : HttpVersion) :
    (respond fuel locals table job out version).Calls fun op ↦ Quiet op ∨
      (version = .dotZero ∨ version = .dotOne) ∧
        Requests (cstr out.path 0) (cstr out.hostname 0) op := by
  have hreply (reply : List UInt8) : (do
      let _ ← trySendInChunks (.client job.clientSocketFd) reply reply.length
      (.ret () : Worker Unit)).Calls Quiet := (sendToClient_quiet _ _ _).bind fun _ ↦ trivial
  cases version with
  | malformed => exact (hreply _).mono fun _ ↦ .inl
  | notSupported => exact (hreply _).mono fun _ ↦ .inl
  | dotZero => exact (answerRequest_requests _ _ _).mono fun _ h ↦ h.imp_right (⟨.inl rfl, ·⟩)
  | dotOne => exact (answerRequest_requests _ _ _).mono fun _ h ↦ h.imp_right (⟨.inr rfl, ·⟩)

/-- A job looks up, and sends to a server, what its request says, once it is accepted. -/
theorem parseJob_requests {parsed : Status × List UInt8 × ParseOut}
    (hparse : parseRequestString job.request locals.parseOut = .ok parsed) :
    (parseJob fuel locals table job).Calls fun op ↦ Quiet op ∨ Accepted parsed.1 parsed.2.2 ∧
      Requests (cstr parsed.2.2.path 0) (cstr parsed.2.2.hostname 0) op := by
  rw [parseJob, hparse, Prog.lift_ok, Prog.ret_bind]
  split
  next => trivial
  next =>
    refine Prog.Calls.bind ((respond_requests _ _ _).mono fun op h ↦ h.imp_right ?_) fun _ ↦ trivial
    rintro ⟨hversion, hop⟩
    by_cases hfail : parsed.1 = .fail
    · simp [hfail] at hversion
    · rw [if_neg hfail] at hversion
      obtain hsuccess | hline := (parseRequestString_ok hparse).2
      · exact ⟨⟨hsuccess, hversion⟩, hop⟩
      · rw [parseRequestString, strchr_eq_none (by decide) hline] at hparse
        cases hparse
        exact absurd rfl hfail

/-- A run that looks a url up has parsed a request with these texts. -/
theorem run_lookup {tr : Trace} {outcome : Except Fault (JobStatus × Job)} {url : List UInt8}
    {grant : Grant} (hrun : anything.Run () (parseJob fuel locals table job) tr () outcome)
    (hlookup : ⟨.cacheRecordGetOrCreate url, grant⟩ ∈ tr) :
    ∃ left out', parseRequestString job.request locals.parseOut = .ok (.success, left, out') ∧
      Accepted .success out' ∧ url = cstr out'.hostname 0 ++ cstr out'.path 0 ∧
        63 ∉ cstr out'.path 0 := by
  cases hparse : parseRequestString job.request locals.parseOut with
  | error fault =>
      simp only [parseJob, hparse, Prog.lift_error, Prog.halt_bind, run_halt] at hrun
      simp [hrun.1] at hlookup
  | ok parsed =>
      have hcalls := hrun.calls (parseJob_requests hparse) _ hlookup
      obtain ⟨⟨hstatus, hversion⟩, hurl, hquery⟩ := hcalls.resolve_left id
      obtain ⟨status, left, out'⟩ := parsed
      obtain rfl : status = .success := hstatus
      exact ⟨left, out', rfl, ⟨rfl, hversion⟩, hurl, hquery⟩

theorem resolveHost_leads {hostname : List UInt8} {address : Address}
    (hname : blockTableCheck table (splitHostname hostname).1 = false)
    (haddress : blockTableCheck table (inetNtop address) = false) :
    (resolveHost table hostname).Leads (fun _ ↦ True) (.ret (.ok, [address])) := by
  have hcheck : checkAddresses table [address] [address] = .ret (.ok, [address]) := by
    rw [checkAddresses, if_neg (by simp [haddress])]
  rw [resolveHost, if_neg (by simp [hname]), getaddrinfo_bind]
  refine .call trivial (some ⟨[address], List.cons_ne_nil _ _⟩) ?_
  simp only [hcheck]
  exact .here _

/-- A GET for a host that is not blocked comes to the cache. -/
theorem parseJob_leads {out' : ParseOut} {address : Address}
    (hparse : parseRequestString job.request locals.parseOut = .ok (.success, left, out'))
    (hversion : out'.version = .dotZero ∨ out'.version = .dotOne) (hget : out'.isGet = true)
    (hquery : 63 ∉ cstr out'.path 0)
    (hname : blockTableCheck table (splitHostname (cstr out'.hostname 0)).1 = false)
    (haddress : blockTableCheck table (inetNtop address) = false) :
    ∃ k, (parseJob fuel locals table job).Leads (fun _ ↦ True)
      (.call (.cacheRecordGetOrCreate (cstr out'.hostname 0 ++ cstr out'.path 0)) k) := by
  obtain ⟨k, hk⟩ : ∃ k, handleValidRequest fuel locals.cacheFile { job with request := left }
      address (cstr out'.path 0) (cstr out'.hostname 0) =
        .call (.cacheRecordGetOrCreate (cstr out'.hostname 0 ++ cstr out'.path 0)) k := by
    rw [handleValidRequest, if_neg hquery]
    exact ⟨_, rfl⟩
  have hanswer (version : List UInt8) :
      ∃ k, (answerRequest fuel locals table { job with request := left } out' version).Leads
        (fun _ ↦ True)
          (.call (.cacheRecordGetOrCreate (cstr out'.hostname 0 ++ cstr out'.path 0)) k) := by
    rw [answerRequest]
    refine ⟨fun grant ↦ k grant >>= fun _ ↦ freeaddrinfo [address],
      ((resolveHost_leads hname haddress).bind _).trans ?_⟩
    rw [Prog.ret_bind, if_neg (by simp [hget])]
    simp only [hk]
    exact .here _
  obtain ⟨k', hrespond⟩ : ∃ k, (respond fuel locals table { job with request := left } out'
      out'.version).Leads (fun _ ↦ True)
        (.call (.cacheRecordGetOrCreate (cstr out'.hostname 0 ++ cstr out'.path 0)) k) := by
    rcases hversion with hversion | hversion
    · rw [hversion]
      exact hanswer _
    · rw [hversion]
      exact hanswer _
  refine ⟨fun grant ↦ k' grant >>= fun _ ↦ .ret (.terminate, { job with request := left }), ?_⟩
  rw [parseJob, hparse, Prog.lift_ok, Prog.ret_bind, if_neg (by simp)]
  exact hrespond.bind _

/-- Some run goes on where the answers lead. -/
theorem exists_run_of_leads {α : Type} {p : Worker α} {k : Resp op → Worker α}
    (h : p.Leads (fun _ ↦ True) (.call op k)) (r : Resp op) :
    ∃ tr outcome, anything.Run () p tr () outcome ∧ ⟨op, r⟩ ∈ tr := by
  generalize hp' : (.call op k : Worker α) = p' at h
  induction h with
  | here p =>
      subst hp'
      obtain ⟨tr, ⟨⟩, outcome, hrun⟩ := exists_run anything_total (k r) ()
      exact ⟨⟨op, r⟩ :: tr, outcome, .call trivial hrun, List.mem_cons_self⟩
  | @call op' _ _ _ r' _ ih =>
      obtain ⟨tr, outcome, hrun, hmem⟩ := ih hp'
      exact ⟨⟨op', r'⟩ :: tr, outcome, .call trivial hrun, List.mem_cons_of_mem _ hmem⟩

theorem Locals.buffersFit (locals : Locals) : BuffersFit locals.parseOut :=
  buffersFit_of_zeroed rfl rfl

/-- A GET without header lines for a path without a question mark is looked up in some run,
and may be answered in any way. -/
theorem AbsoluteRequest.exists_lookup (r : AbsoluteRequest) (grant : Grant)
    (hversion : requestVersion r.version = .dotZero ∨ requestVersion r.version = .dotOne)
    (hmethod : requestMethod r.line = some true) (hhost : r.host.length ≤ maxNameLength)
    (hheaders : completeLines r.headers = []) (hnul : 0 ∉ r.bytes)
    (hquery : 63 ∉ withoutLastSlash (r.path.take maxUrlSize)) :
    ∃ (locals : Locals) (job : Job) (tr : Trace) (outcome : Except Fault (JobStatus × Job)),
      job.request = r.bytes ++ 0 :: [] ∧ anything.Run () (parseJob 0 locals [] job) tr () outcome ∧
        ⟨.cacheRecordGetOrCreate (r.host ++ withoutLastSlash (r.path.take maxUrlSize)), grant⟩ ∈
          tr ∧
        ∃ left out', parseRequestString job.request locals.parseOut = .ok (.success, left, out') ∧
          r.host = cstr out'.hostname 0 ∧
          withoutLastSlash (r.path.take maxUrlSize) = cstr out'.path 0 := by
  let locals : Locals := ⟨false, .malformed, false, none⟩
  let job : Job := { jobConstruct (-1) with request := r.bytes ++ 0 :: [] }
  obtain ⟨left, out', hparse, hleaves⟩ := r.exists_parseRequest hversion hmethod locals.buffersFit
    hhost (by simp [hheaders]) hnul []
  have hstring : 0 ∉ r.host := fun hmem ↦ hnul (r.line_subset (r.host_subset hmem))
  have hhostname := hleaves.host_of_url rfl hstring (by simp [hheaders])
  have hget : out'.isGet = true := (Option.some.inj (hmethod.symm.trans hleaves.isGet)).symm
  rw [← hleaves.path] at hquery ⊢
  rw [← hhostname]
  have haddress : blockTableCheck [] (inetNtop ⟨10, 0, 0, 1, 80⟩) = false := rfl
  obtain ⟨k, hleads⟩ : ∃ k, (parseJob 0 locals [] job).Leads (fun _ ↦ True)
      (.call (.cacheRecordGetOrCreate (cstr out'.hostname 0 ++ cstr out'.path 0)) k) :=
    parseJob_leads hparse (hleaves.accepted hversion).2 hget hquery rfl haddress
  obtain ⟨tr, outcome, hrun, hmem⟩ := exists_run_of_leads hleads grant
  exact ⟨locals, job, tr, outcome, rfl, hrun, hmem, left, out', hparse, rfl, rfl⟩

/-! ## Its lines -/

/-- The lines that are sent upstream, without CR and LF. -/
def upstreamLines (path hostname : List UInt8) : List (List UInt8) :=
  [text "GET " ++ path ++ text " HTTP/1.1", text "Host: " ++ hostname, text "Connection: close",
    text "Proxy-Connection: close", []]

theorem upstreamRequest_eq (path hostname : List UInt8) :
    upstreamRequest path hostname = (upstreamLines path hostname).flatMap (· ++ crlf) := by
  have hhost : text " HTTP/1.1\r\nHost: " = text " HTTP/1.1" ++ (crlf ++ text "Host: ") := by decide
  have hend : text "\r\nConnection: close\r\nProxy-Connection: close\r\n\r\n" =
      crlf ++ (text "Connection: close" ++ (crlf ++ (text "Proxy-Connection: close" ++
        (crlf ++ crlf)))) := by decide
  simp [upstreamRequest, upstreamLines, hhost, hend]

theorem upstreamLines_notMem (hpath : lf ∉ path) (hhost : lf ∉ hostname) :
    ∀ line ∈ upstreamLines path hostname, lf ∉ line := by
  have hwords : lf ∉ text "GET " ∧ lf ∉ text " HTTP/1.1" ∧ lf ∉ text "Host: " ∧
      lf ∉ text "Connection: close" ∧ lf ∉ text "Proxy-Connection: close" := by decide
  simp only [upstreamLines, List.forall_mem_cons, List.mem_append, not_or]
  exact ⟨⟨⟨hwords.1, hpath⟩, hwords.2.1⟩, ⟨hwords.2.2.1, hhost⟩, hwords.2.2.2.1, hwords.2.2.2.2,
    List.not_mem_nil, by simp⟩

theorem count_lf_flatMap {lines : List (List UInt8)} (h : ∀ line ∈ lines, lf ∉ line) :
    (lines.flatMap (· ++ crlf)).count lf = lines.length := by
  have hend : crlf.count lf = 1 := by decide
  induction lines with
  | nil => rfl
  | cons line lines ih =>
      obtain ⟨hline, hrest⟩ := List.forall_mem_cons.mp h
      rw [List.flatMap_cons, List.count_append, List.count_append, List.count_eq_zero.mpr hline,
        hend, ih hrest, List.length_cons, Nat.zero_add, Nat.add_comm]

theorem upstreamRequest_length (path hostname : List UInt8) :
    (upstreamRequest path hostname).length = path.length + hostname.length + 69 := by
  have hstart : (text "GET ").length = 4 := rfl
  have hhost : (text " HTTP/1.1\r\nHost: ").length = 17 := rfl
  have hend : (text "\r\nConnection: close\r\nProxy-Connection: close\r\n\r\n").length = 48 := rfl
  simp only [upstreamRequest, List.length_append, hstart, hhost, hend]
  omega

/-- Neither text of an accepted request has a line feed, and both fit. -/
theorem accepted_texts {status : Status} (ht : 0 ∉ t)
    (h : parseRequestString (t ++ 0 :: rest) locals.parseOut = .ok (status, left, out'))
    (haccepted : Accepted status out') :
    (lf ∉ cstr out'.path 0 ∧ lf ∉ cstr out'.hostname 0) ∧
      (cstr out'.path 0).length ≤ maxUrlSize ∧ (cstr out'.hostname 0).length ≤ maxNameLength := by
  obtain ⟨rfl, hversion⟩ := haccepted
  have hparse := parseText_of_parse ht h
  have hout := locals.buffersFit
  obtain ⟨r, rfl, hleaves⟩ := exists_leaves ht hout h hversion
  have hurl : lf ∉ r.host ∧ lf ∉ r.path := by
    have hline := r.line_lf
    simp only [List.mem_append, List.mem_cons, not_or] at hline
    exact ⟨hline.2.2.1.1.2, hline.2.2.1.2⟩
  have hstored : cstr out'.path 0 <+: r.path :=
    hleaves.path ▸ (withoutLastSlash_isPrefix _).trans (List.take_prefix _ _)
  refine ⟨⟨fun hmem ↦ hurl.2 (hstored.subset hmem), fun hmem ↦ ?_⟩, ?_, ?_⟩
  · refine hleaves.forall_host (P := (· ≠ lf)) (by decide) rfl ?_ ?_ lf hmem rfl
    · rintro c hc rfl
      exact hurl.1 hc
    · rintro line hline c hc rfl
      exact completeLines_notMem _ line hline hc
  · rw [hleaves.path]
    exact (withoutLastSlash_isPrefix _).length_le.trans (List.length_take_le _ _)
  · rcases parseText_decides (t := r.bytes) hout with ⟨-, result, hok, hfit⟩ | ⟨-, fault, hbad⟩
    · obtain rfl := Except.ok.inj (hparse.symm.trans hok)
      exact hfit.hostname_string
    · rw [hbad] at hparse
      cases hparse

/-! ## The bytes that are sent to the server -/

/-- What a run of the program sends to a server is the start of these bytes, and all of them if
it goes on to read what the server answers. -/
def SendsUpstream (bytes : List UInt8) (p : Worker α) : Prop :=
  ∀ fd tr outcome, anything.Run () p tr () outcome →
    bytesSent (.server fd) tr <+: bytes ∧
      (fd ≠ -1 → (∃ e ∈ tr, ReadsServer fd e.1) → bytesSent (.server fd) tr = bytes)

/-- The calls that exchange nothing with a server. -/
def NoExchange : Op → Prop
  | .send (.server _) _ => False
  | .recv (.server _) _ _ => False
  | _ => True

theorem Quiet.noExchange (h : Quiet op) : NoExchange op := by
  cases op with
  | send socket bytes => cases socket <;> exact h
  | recv socket size dontWait => cases socket <;> exact h
  | _ => trivial

theorem NoExchange.not_readsServer {fd : ℤ} (h : NoExchange op) : ¬ReadsServer fd op := by
  rintro ⟨size, dontWait, rfl⟩
  exact h

theorem NoExchange.sentOn {r : Resp op} {fd : ℤ} (h : NoExchange op) :
    sentOn (.server fd) ⟨op, r⟩ = [] := by
  cases op with
  | send socket bytes =>
      cases socket with
      | server fd => exact h.elim
      | client fd =>
          cases r with
          | none => rfl
          | some n => simp [HttpProxy.sentOn]
  | _ => rfl

theorem Relays.sentOn {r : Resp op} {fd fd' : ℤ} (h : Relays fd op) :
    sentOn (.server fd') ⟨op, r⟩ = [] := by
  rcases h with h | ⟨size, dontWait, rfl⟩
  · exact h.noExchange.sentOn
  · rfl

theorem bytesSent_of_quiet {p : Worker α} {outcome : Except Fault α} (fd : ℤ) (h : p.Calls Quiet)
    (hrun : anything.Run () p tr () outcome) : bytesSent (.server fd) tr = [] := by
  rw [bytesSent, List.flatMap_eq_nil_iff]
  exact fun e he ↦ (hrun.calls h e he).noExchange.sentOn

theorem not_reads_of_quiet {p : Worker α} {outcome : Except Fault α} (fd : ℤ) (h : p.Calls Quiet)
    (hrun : anything.Run () p tr () outcome) : ¬∃ e ∈ tr, ReadsServer fd e.1 := by
  rintro ⟨e, he, hread⟩
  exact (hrun.calls h e he).noExchange.not_readsServer hread

namespace SendsUpstream

variable {bytes : List UInt8} {p : Worker α} {f : α → Worker β}

theorem of_quiet (h : p.Calls Quiet) : SendsUpstream bytes p := by
  intro fd tr outcome hrun
  rw [bytesSent_of_quiet fd h hrun]
  exact ⟨List.nil_prefix, fun _ hread ↦ absurd hread (not_reads_of_quiet fd h hrun)⟩

theorem call {k : Resp op → Worker α} (hop : NoExchange op)
    (h : ∀ r, SendsUpstream bytes (k r)) : SendsUpstream bytes (.call op k) := by
  intro fd tr outcome hrun
  obtain ⟨r, tr, -, rfl, hrest⟩ := run_call.mp hrun
  have hcons : bytesSent (.server fd) (⟨op, r⟩ :: tr) = bytesSent (.server fd) tr := by
    rw [bytesSent, List.flatMap_cons, hop.sentOn, List.nil_append, bytesSent]
  obtain ⟨hfront, hwhole⟩ := h r fd tr outcome hrest
  rw [hcons]
  refine ⟨hfront, fun hfd hread ↦ hwhole hfd ?_⟩
  obtain ⟨e, he, hread⟩ := hread
  rcases List.mem_cons.mp he with rfl | he
  · exact absurd hread hop.not_readsServer
  · exact ⟨e, he, hread⟩

theorem bind_quiet (h : SendsUpstream bytes p) (hf : ∀ a, (f a).Calls Quiet) :
    SendsUpstream bytes (p >>= f) := by
  intro fd tr outcome hrun
  rcases hrun.bind_cases with ⟨fault, hp, -⟩ | ⟨a, tr₁, ⟨⟩, tr₂, hp, hrest, rfl⟩
  · exact h fd tr _ hp
  · obtain ⟨hfront, hwhole⟩ := h fd tr₁ _ hp
    rw [bytesSent_append, bytesSent_of_quiet fd (hf a) hrest, List.append_nil]
    refine ⟨hfront, fun hfd hread ↦ hwhole hfd ?_⟩
    obtain ⟨e, he, hread⟩ := hread
    rcases List.mem_append.mp he with he | he
    · exact ⟨e, he, hread⟩
    · exact absurd ⟨e, he, hread⟩ (not_reads_of_quiet fd (hf a) hrest)

theorem quiet_bind (h : p.Calls Quiet) (hf : ∀ a, SendsUpstream bytes (f a)) :
    SendsUpstream bytes (p >>= f) := by
  intro fd tr outcome hrun
  rcases hrun.bind_cases with ⟨fault, hp, -⟩ | ⟨a, tr₁, ⟨⟩, tr₂, hp, hrest, rfl⟩
  · exact of_quiet h fd tr _ hp
  · obtain ⟨hfront, hwhole⟩ := hf a fd tr₂ _ hrest
    rw [bytesSent_append, bytesSent_of_quiet fd h hp, List.nil_append]
    refine ⟨hfront, fun hfd hread ↦ hwhole hfd ?_⟩
    obtain ⟨e, he, hread⟩ := hread
    rcases List.mem_append.mp he with he | he
    · exact absurd ⟨e, he, hread⟩ (not_reads_of_quiet fd h hp)
    · exact ⟨e, he, hread⟩

end SendsUpstream

/-- A send to one server is none to another. -/
theorem bytesSent_of_sendsTo {fd fd' : ℤ} (hne : fd' ≠ fd)
    (hto : ∀ e ∈ tr, SendsTo (.server fd) e.1) : bytesSent (.server fd') tr = [] := by
  rw [bytesSent, List.flatMap_eq_nil_iff]
  rintro ⟨op, r⟩ he
  rcases hto _ he with hpeek | ⟨rest, hsend⟩
  · obtain rfl : op = .peek (.server fd) := hpeek
    rfl
  · obtain rfl : op = .send (.server fd) rest := hsend
    cases r with
    | none => rfl
    | some n => simp [sentOn, hne.symm]

/-- A send that is followed by a relay from the same server. -/
theorem sendUpstream_sendsUpstream {f : Status → Worker β} (fd : ℤ) (bytes : List UInt8)
    (hfail : (f .fail).Calls Quiet) (hsuccess : (f .success).Calls (Relays fd)) :
    SendsUpstream bytes (trySendInChunks (.server fd) bytes bytes.length >>= f) := by
  intro fd' tr outcome hrun
  obtain ⟨status, tr₁, ⟨⟩, tr₂, hsend, hrest, rfl⟩ := run_trySendInChunks_bind hrun
  obtain ⟨hto, hfront, hstatus⟩ := run_trySendInChunks hsend
  rw [Int.toNat_natCast, List.take_length] at hfront
  have hcalls : ∀ e ∈ tr₂, Relays fd e.1 := by
    rcases hstatus with hstatus | hstatus
    · obtain rfl : status = .success := Except.ok.inj hstatus
      exact hrest.calls hsuccess
    · obtain rfl : status = .fail := Except.ok.inj hstatus
      exact fun e he ↦ .inl (hrest.calls hfail e he)
  have hnone : bytesSent (.server fd') tr₂ = [] := by
    rw [bytesSent, List.flatMap_eq_nil_iff]
    exact fun e he ↦ (hcalls e he).sentOn
  rw [bytesSent_append, hnone, List.append_nil]
  constructor
  · by_cases hsame : fd' = fd
    · rwa [hsame]
    · rw [bytesSent_of_sendsTo hsame hto]
      exact List.nil_prefix
  · -- What is read is read behind the send, and from the same server.
    rintro hfd ⟨e, he, hread⟩
    rcases List.mem_append.mp he with he | he
    · obtain ⟨size, dontWait, hrecv⟩ := hread
      rcases hto e he with hpeek | ⟨rest, hother⟩
      · simp [hrecv] at hpeek
      · simp [hrecv] at hother
    · rcases hstatus with hstatus | hstatus
      · obtain rfl : status = .success := Except.ok.inj hstatus
        have hserver := (hcalls e he).resolve_left fun hquiet ↦
          hquiet.noExchange.not_readsServer hread
        obtain rfl : fd' = fd := hread.unique hserver
        exact run_trySendInChunks_success hfd hsend
      · obtain rfl : status = .fail := Except.ok.inj hstatus
        exact absurd ⟨e, he, hread⟩ (not_reads_of_quiet fd' hfail hrest)

theorem fetch_sendsUpstream (job : Job) (grant : Grant) (cacheFile : Option FileHandle)
    (serverAddress : Address) (path hostname : List UInt8) :
    SendsUpstream (upstreamRequest path hostname)
      (fetch fuel job grant cacheFile serverAddress path hostname) := by
  have hclose : (closeIfOpen cacheFile >>= fun _ ↦ (.ret .fail : Worker Status)).Calls Quiet :=
    (closeIfOpen_quiet cacheFile).bind fun _ ↦ trivial
  simp only [fetch, newSocket_bind, connect_bind]
  refine .call trivial fun serverSocketFd ↦ .call trivial fun connected ↦ ?_
  split
  · exact .of_quiet hclose
  · apply sendUpstream_sendsUpstream
    · exact hclose
    · exact relayResponse_relays _ _ _ _ _

theorem serveGrant_sendsUpstream (cacheFile : Option FileHandle) (job : Job) (grant : Grant)
    (serverAddress : Address) (path hostname : List UInt8) :
    SendsUpstream (upstreamRequest path hostname)
      (serveGrant fuel cacheFile job grant serverAddress path hostname) := by
  unfold serveGrant
  split
  next =>
    apply SendsUpstream.of_quiet
    cases grant.record with
    | none => trivial
    | some record => exact ⟨trivial, fun _ ↦ trivial⟩
  next =>
    cases grant with
    | unavailable record => exact fetch_sendsUpstream _ _ _ _ _ _
    | shouldRead record =>
        refine .call trivial fun opened ↦ ?_
        cases opened with
        | none => exact fetch_sendsUpstream _ _ _ _ _ _
        | some file => exact .of_quiet (serveCached_quiet _ _ _ _)
    | shouldWrite record =>
        exact .call trivial fun opened ↦ fetch_sendsUpstream _ _ _ _ _ _

theorem handleValidRequest_sendsUpstream (cacheFile : Option FileHandle) (job : Job)
    (serverAddress : Address) (path hostname : List UInt8) :
    SendsUpstream (upstreamRequest path hostname)
      (handleValidRequest fuel cacheFile job serverAddress path hostname) := by
  unfold handleValidRequest
  split
  · exact serveGrant_sendsUpstream _ _ _ _ _ _
  · exact .call trivial fun grant ↦ serveGrant_sendsUpstream _ _ _ _ _ _

/-- The request that is sent upstream for an accepted one has five lines, fits the buffer it is
written to, and is all that is sent: each send is of what is left of it, and what a server has
taken is the start of it, and the whole of it before its answer is relayed. -/
theorem upstreamRequest_whole {status : Status} (ht : 0 ∉ t)
    (h : parseRequestString (t ++ 0 :: rest) locals.parseOut = .ok (status, left, out'))
    (haccepted : Accepted status out') :
    (lf ∉ cstr out'.path 0 ∧ lf ∉ cstr out'.hostname 0) ∧
      (upstreamRequest (cstr out'.path 0) (cstr out'.hostname 0)).count lf = 5 ∧
      (upstreamRequest (cstr out'.path 0) (cstr out'.hostname 0) =
          (upstreamLines (cstr out'.path 0) (cstr out'.hostname 0)).flatMap (· ++ crlf) ∧
        completeLines (upstreamRequest (cstr out'.path 0) (cstr out'.hostname 0)) =
          (upstreamLines (cstr out'.path 0) (cstr out'.hostname 0)).map (· ++ [cr])) ∧
      (upstreamRequest (cstr out'.path 0) (cstr out'.hostname 0)).length ≤ jobRequestBufferSize ∧
      ∀ fuel cacheFile job serverAddress,
        ((handleValidRequest fuel cacheFile job serverAddress (cstr out'.path 0)
          (cstr out'.hostname 0)).Calls fun op ↦ ∀ fd bytes, op = .send (.server fd) bytes →
            bytes <:+ upstreamRequest (cstr out'.path 0) (cstr out'.hostname 0)) ∧
        SendsUpstream (upstreamRequest (cstr out'.path 0) (cstr out'.hostname 0))
          (handleValidRequest fuel cacheFile job serverAddress (cstr out'.path 0)
            (cstr out'.hostname 0)) := by
  obtain ⟨⟨hpath, hhost⟩, hpathLength, hhostLength⟩ := accepted_texts ht h haccepted
  have hlines := upstreamLines_notMem hpath hhost
  refine ⟨⟨hpath, hhost⟩, ?_, ⟨upstreamRequest_eq _ _, ?_⟩, ?_, ?_⟩
  · rw [upstreamRequest_eq, count_lf_flatMap hlines]
    rfl
  · rw [upstreamRequest_eq, completeLines_flatMap hlines]
  · rw [upstreamRequest_length]
    simp only [maxUrlSize, maxNameLength, jobRequestBufferSize] at hpathLength hhostLength ⊢
    omega
  · intro fuel cacheFile job serverAddress
    refine ⟨?_, handleValidRequest_sendsUpstream cacheFile job serverAddress _ _⟩
    apply (handleValidRequest_requests cacheFile job serverAddress _ _).mono
    rintro op hop fd bytes rfl
    exact hop.resolve_left id

/-- A host that is written twice more. -/
def twoHostsRequest : AbsoluteRequest :=
  httpRequest (text "GET") (text "abc") (text "/") (text "HTTP/1.1\r")
    (text "Host: x\r\nHost: yz\r\n") (by decide)

theorem upstreamRequest_whole_of_twoHosts : ∃ locals : Locals, ∃ left out',
    parseRequestString (twoHostsRequest.bytes ++ 0 :: []) locals.parseOut =
        .ok (.success, left, out') ∧
      (upstreamRequest (cstr out'.path 0) (cstr out'.hostname 0)).count lf = 5 := by
  have hversion : requestVersion twoHostsRequest.version = .dotOne := by decide
  have hmethod : requestMethod twoHostsRequest.line = some true := by decide
  have hlines : ∀ line ∈ completeLines twoHostsRequest.headers,
      IsHostLine line → HostLineFits line := by
    have hread : completeLines twoHostsRequest.headers = [text "Host: x\r", text "Host: yz\r"] := by
      decide
    rw [hread]
    simp only [IsHostLine, HostLineFits]
    decide
  let locals : Locals := ⟨false, .malformed, false, none⟩
  obtain ⟨left, out', hparse, hleaves⟩ := twoHostsRequest.exists_parseRequest (.inr hversion)
    hmethod locals.buffersFit (by decide) hlines (by decide) []
  exact ⟨locals, left, out', hparse,
    (upstreamRequest_whole (by decide) hparse (hleaves.accepted (.inr hversion))).2.1⟩

end HttpProxy
