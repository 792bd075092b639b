import HttpProxy.LoggedWorker
import HttpProxy.PrefetchCalls
import HttpProxy.RequestStream
import HttpProxy.ResponseText
import HttpProxy.UpstreamRequest

/-!
# What the log changes

The lines that the worker logs fit the buffers they are formatted in, and so do the other texts
that `worker.c` puts together.  A worker with its log makes the calls of one without and comes to
the same end.
-/

namespace HttpProxy

open CString Interaction Protocol

variable {threadId n : ℤ} {fuel size : ℕ} {locals : Locals} {table : BlockTable} {job : Job}
  {hostname path line : List UInt8} {file : FileHandle} {reread : ℕ → Job → List UInt8}

/-! ## Lines -/

theorem decimal_length (h : InIntRange n) : (decimal n).length ≤ 11 := by
  obtain ⟨hlow, hhigh⟩ := h
  have hdigits : (Nat.toDigits 10 n.natAbs).length ≤ 10 := by
    rw [Nat.length_toDigits_le_iff (by decide) (by decide)]
    omega
  have hsign : (if n < 0 then [(45 : UInt8)] else []).length ≤ 1 := by
    split <;> decide
  rw [decimal, List.length_append, List.length_map]
  omega

theorem decimal_string (n : ℤ) : 0 ∉ decimal n := by
  rw [decimal, List.mem_append, not_or]
  constructor
  · split <;> decide
  · intro hmem
    obtain ⟨c, hc, hzero⟩ := List.mem_map.mp hmem
    have hdigit := Nat.isDigit_of_mem_toDigits (by decide) (by decide) hc
    simp only [Char.isDigit, Bool.and_eq_true, decide_eq_true_eq] at hdigit
    have hlow : 48 ≤ c.toNat := hdigit.1
    have hhigh : c.toNat ≤ 57 := hdigit.2
    have hnat := congrArg UInt8.toNat hzero
    simp at hnat
    omega

/-- A line of the log that a thread writes. -/
structure LogLine (threadId : ℤ) (message : List UInt8) : Prop where
  mark : threadMark threadId <+: message
  ends : [lf] <:+ message
  string : 0 ∉ message

theorem threadMark_string (threadId : ℤ) : 0 ∉ threadMark threadId := by
  have hmark : (0 : UInt8) ∉ text "> " := by decide
  simp only [threadMark, List.mem_cons, List.mem_append, not_or]
  exact ⟨by decide, decimal_string threadId, hmark⟩

theorem threadMark_length (h : InIntRange threadId) : (threadMark threadId).length ≤ 14 := by
  have hdigits := decimal_length h
  have hmark : (text "> ").length = 2 := rfl
  simp only [threadMark, List.length_cons, List.length_append, hmark]
  omega

theorem logLine_of_string (hline : 0 ∉ line) :
    LogLine threadId (threadMark threadId ++ (line ++ [lf])) := by
  refine ⟨List.prefix_append _ _, (List.suffix_append line [lf]).trans (List.suffix_append _ _), ?_⟩
  simp only [List.mem_append, List.mem_singleton, not_or]
  exact ⟨threadMark_string threadId, hline, by decide⟩

theorem sprintf_ok {s : List UInt8} (h : s.length < size) : sprintf size s = .ok s := if_pos h

theorem cacheFilePath_length {record : RecordRef} (h : record.name.length < cacheHashLength) :
    (cacheFilePath record).length < nameBufferSize := by
  have hroot : cacheFileRoot.length = 7 := rfl
  have hsizes : cacheHashLength = 33 ∧ nameBufferSize = 257 := ⟨rfl, rfl⟩
  rw [cacheFilePath, List.length_append, List.length_cons]
  omega

/-- What is known of the answers: the name of a record fits the field it is kept in. -/
def RecordNameFits : (op : Op) → Resp op → Prop
  | .cacheRecordGetOrCreate _, answer =>
      ∀ record, Grant.record answer = some record → record.name.length < cacheHashLength
  | _, _ => True

/-- The program with its log is the one without. -/
abbrev LogsLike {α : Type} (threadId : ℤ) : LoggedWorker α → Worker α → Prop :=
  Prog.Logs RecordNameFits (LogLine threadId)

section

variable {α : Type} {p : LoggedWorker α} {q : Worker α}

theorem logs_sprintf {s : List UInt8} {f : List UInt8 → LoggedWorker α} (h : s.length < size)
    (hf : LogsLike threadId (f s) q) :
    LogsLike threadId (Prog.lift (sprintf size s) >>= f) q := by
  rw [sprintf_ok h]
  exact hf

theorem logs_logLine (h : (threadMark threadId ++ (line ++ [lf])).length < size)
    (hline : 0 ∉ line) :
    LogsLike threadId (logLine size (threadMark threadId ++ (line ++ [lf]))) (.ret ()) :=
  logs_sprintf h (.log (logLine_of_string hline) (.ret ()))

end

theorem logs_logSocket (hthread : InIntRange threadId) (hfd : InIntRange job.clientSocketFd)
    (hlength : line.length < 4500) (hline : 0 ∉ line) :
    LogsLike threadId (logSocket threadId job line) (.ret ()) := by
  have hmark := threadMark_length hthread
  have hdigits := decimal_length hfd
  have hsocket : (text "socket:").length = 7 := rfl
  have hsize : outputBufferSize = 4608 := rfl
  have hstring : (0 : UInt8) ∉ text "socket:" := by decide
  have hspace : (0 : UInt8) ≠ space := by decide
  have hsplit : socketMark threadId job ++ (line ++ [lf]) = threadMark threadId ++
      ((text "socket:" ++ (decimal job.clientSocketFd ++ (space :: line))) ++ [lf]) := by
    simp only [socketMark, List.append_assoc, List.cons_append, List.nil_append]
  rw [logSocket, hsplit]
  apply logs_logLine
  · simp only [List.length_append, List.length_cons, List.length_nil, hsocket]
    omega
  · simp only [List.mem_append, List.mem_cons, not_or]
    exact ⟨hstring, decimal_string _, hspace, hline⟩

/-! ## Prefetching -/

/-- The buffer of a job has its size and holds a string. -/
structure BufferFits (job : Job) : Prop where
  terminated : 0 ∈ job.request
  length : job.request.length ≤ jobRequestBufferSize + 1

/-- A pushed job that is read again has not been freed: its buffer holds a string, whatever a
prefetch worker has made of it. -/
def RereadFits (reread : ℕ → Job → List UInt8) : Prop :=
  ∀ n job, IsPrefetchJob job → BufferFits { job with request := reread n job }

theorem length_cstr_lt {s : List UInt8} (h : 0 ∈ s) : (cstr s 0).length < s.length := by
  obtain ⟨front, back, rfl, hfront⟩ := List.eq_append_cons_of_mem h
  rw [cstr_append_nul hfront, List.length_append, List.length_cons]
  omega

section

variable (hthread : InIntRange threadId) (hreread : RereadFits reread)
include hthread

include hreread in
theorem loggedDispatchLoop_logs (hstring : 0 ∉ hostname)
    (hlength : hostname.length ≤ maxNameLength) :
    LogsLike threadId (loggedDispatchLoop threadId reread fuel file hostname)
      (dispatchLoop fuel file hostname) := by
  induction fuel with
  | zero => exact .halt _
  | succ fuel ih =>
      have hfd : (0 : ℤ) ≠ -1 := by decide
      have hmark := threadMark_length hthread
      have hfound : (text "found link: ").length = 12 := rfl
      have hdispatched : (text "prefetch dispatched: ").length = 21 := rfl
      have hsizes : dispatchRequestSize = 6144 ∧ maxUrlSize = 2048 ∧ maxNameLength = 256 ∧
          jobRequestBufferSize = 4096 := ⟨rfl, rfl, rfl, rfl⟩
      have hfind : (findHref fuel file).Within (JobCalls 0) fun result ↦
          ∀ link, result = .success link → 0 ∉ link ∧ link.length ≤ maxUrlSize :=
        ⟨hfd, fun _ ↦ findHrefLoop_within hfd _ _⟩
      apply Prog.logs_silent_bind hfind
      intro result hresult
      cases result with
      | finished => exact .ret ()
      | fail => exact ih
      | success foundLink =>
          obtain ⟨hlink, hlinkLength⟩ := hresult foundLink rfl
          have hfits : LinkFits hostname foundLink := ⟨hstring, by omega, hlink, hlinkLength⟩
          have hrequest := dispatchRequest_length hfits
          have hread := hreread fuel _ ⟨hostname, foundLink, hfits, rfl⟩
          have hreadLength : (cstr (reread fuel (prefetchJob hostname foundLink)) 0).length <
              jobRequestBufferSize + 1 := (length_cstr_lt hread.terminated).trans_le hread.length
          have hfoundString : (0 : UInt8) ∉ text "found link: " := by decide
          have hdispatchedString : (0 : UInt8) ∉ text "prefetch dispatched: " := by decide
          apply Prog.Logs.ret_bind (b := ())
          · apply logs_logLine
            · simp only [List.length_append, List.length_cons, List.length_nil, hfound]
              omega
            · rw [List.mem_append, not_or]
              exact ⟨hfoundString, hlink⟩
          · simp only
            split
            · refine logs_sprintf (by omega) (.call fun pushed _ ↦ ?_)
              apply Prog.Logs.ret_bind (b := ())
              · apply logs_logLine
                · simp only [List.length_append, List.length_cons, List.length_nil, hdispatched]
                  omega
                · rw [List.mem_append, not_or]
                  exact ⟨hdispatchedString, nul_notMem_cstr _ _⟩
              · exact ih
            · exact ih

include hreread in
theorem loggedDispatchPrefetchJobs_logs (cachedResponse : Option FileHandle)
    (hstring : 0 ∉ hostname) (hlength : hostname.length ≤ maxNameLength) :
    LogsLike threadId (loggedDispatchPrefetchJobs threadId reread fuel cachedResponse hostname)
      (dispatchPrefetchJobs fuel cachedResponse hostname) := by
  apply (Prog.logs_silent (nonNullFile cachedResponse)).bind
  intro file
  exact .call fun _ _ ↦ loggedDispatchLoop_logs hthread hreread hstring hlength

/-! ## Serving a request -/

variable (hfd : InIntRange job.clientSocketFd)
include hfd

theorem logs_sendingFailed :
    LogsLike threadId (logSocket threadId job (text "sending to client failed")) (.ret ()) :=
  logs_logSocket hthread hfd (by decide) (by decide)

theorem loggedRelayLoop_logs (serverSocketFd : ℤ) (cacheFile : Option FileHandle)
    (contentLength contentRead : ℤ) :
    LogsLike threadId
      (loggedRelayLoop threadId job fuel serverSocketFd cacheFile contentLength contentRead)
      (relayLoop fuel serverSocketFd (.client job.clientSocketFd) cacheFile contentLength
        contentRead) := by
  induction fuel generalizing contentRead with
  | zero => exact .halt _
  | succ fuel ih =>
      simp only [loggedRelayLoop, relayLoop]
      split
      · refine Prog.logs_perform_bind fun received _ ↦ ?_
        split
        · exact .halt _
        · apply (Prog.logs_silent (cacheAndSend _ cacheFile received.bytes received.length)).bind
          intro result
          split
          · exact logs_sendingFailed hthread hfd
          · exact ih _
      · exact .ret ()

theorem loggedRelayRest_logs (serverSocketFd : ℤ) (cacheFile : Option FileHandle)
    (lengths : ℤ × ℤ) (bytesRead : ℤ) :
    LogsLike threadId
      (loggedRelayRest threadId fuel job serverSocketFd cacheFile lengths bytesRead)
      (relayRest fuel serverSocketFd (.client job.clientSocketFd) cacheFile lengths bytesRead) := by
  simp only [loggedRelayRest, relayRest]
  split
  · exact .halt _
  · split
    · exact loggedRelayLoop_logs hthread hfd _ _ _ _
    · exact .ret ()

theorem logRelayed_logs : LogsLike threadId (logRelayed threadId job) (.ret ()) := by
  unfold logRelayed
  split
  · exact logs_logSocket hthread hfd (by decide) (by decide)
  · exact .ret ()

section

variable (hstring : 0 ∉ hostname) (hlength : hostname.length ≤ maxNameLength)
include hreread hstring hlength

theorem loggedServeCached_logs (record : RecordRef) (cacheFile : FileHandle) :
    LogsLike threadId (loggedServeCached threadId reread fuel job record cacheFile hostname)
      (serveCached fuel job record cacheFile hostname) := by
  apply (Prog.logs_silent (sendCachedLoop fuel _ cacheFile)).bind
  intro result
  split
  · apply Prog.Logs.ret_bind (logs_sendingFailed hthread hfd)
    exact .call fun _ _ ↦ .call fun _ _ ↦ .ret _
  · apply (loggedDispatchPrefetchJobs_logs hthread hreread _ hstring hlength).bind
    exact fun _ ↦ .call fun _ _ ↦ .call fun _ _ ↦ .ret _

omit hfd in
theorem loggedFinishRelay_logs (grant : Grant) (cacheFile : Option FileHandle) :
    LogsLike threadId (loggedFinishRelay threadId reread fuel job grant cacheFile hostname)
      (finishRelay fuel job grant cacheFile hostname) := by
  have hdispatch : LogsLike threadId
      (loggedDispatchForClient threadId reread fuel job cacheFile hostname)
      (dispatchForClient fuel job cacheFile hostname) := by
    unfold loggedDispatchForClient dispatchForClient
    split
    · exact loggedDispatchPrefetchJobs_logs hthread hreread _ hstring hlength
    · exact .ret ()
  cases grant with
  | shouldWrite record =>
      have hwrite : LogsLike threadId
          (loggedFinishWrite threadId reread fuel job record cacheFile hostname)
          (finishWrite fuel job record cacheFile hostname) := by
        refine hdispatch.bind fun _ ↦ (Prog.logs_silent (nonNullFile cacheFile)).bind fun file ↦ ?_
        exact .call fun _ _ ↦ .call fun _ _ ↦ .ret _
      exact hwrite.bind fun _ ↦ .ret _
  | unavailable record => exact .ret _
  | shouldRead record => exact .ret _

theorem loggedRelayResponse_logs (grant : Grant) (cacheFile : Option FileHandle)
    (serverSocketFd : ℤ) :
    LogsLike threadId
      (loggedRelayResponse threadId reread fuel job grant cacheFile serverSocketFd hostname)
      (relayResponse fuel job grant cacheFile serverSocketFd hostname) := by
  refine Prog.logs_perform_bind fun received _ ↦ ?_
  apply (Prog.logs_lift (parseResponseHeader (responseBuffer received.bytes))).bind
  intro lengths
  apply (Prog.logs_silent (cacheAndSend _ cacheFile received.bytes received.length)).bind
  intro result
  split
  · exact Prog.Logs.ret_bind (logs_sendingFailed hthread hfd) (.ret _)
  · apply (loggedRelayRest_logs hthread hfd serverSocketFd cacheFile lengths _).bind
    intro _
    apply Prog.Logs.ret_bind (logRelayed_logs hthread hfd)
    exact Prog.logs_perform_bind fun _ _ ↦
      loggedFinishRelay_logs hthread hreread hstring hlength grant cacheFile

variable (hpath : path.length ≤ maxUrlSize)
include hpath

theorem loggedFetch_logs (grant : Grant) (cacheFile : Option FileHandle)
    (serverAddress : Address) :
    LogsLike threadId
      (loggedFetch threadId reread fuel job grant cacheFile serverAddress path hostname)
      (fetch fuel job grant cacheFile serverAddress path hostname) := by
  have hsizes : responseBufferSize = 4097 ∧ maxUrlSize = 2048 ∧ maxNameLength = 256 :=
    ⟨rfl, rfl, rfl⟩
  refine Prog.logs_perform_bind fun serverSocketFd _ ↦ Prog.logs_perform_bind fun connected _ ↦ ?_
  split
  · exact (Prog.logs_silent (closeIfOpen cacheFile)).bind fun _ ↦ .ret _
  · apply logs_sprintf
    · rw [upstreamRequest_length]
      omega
    · apply (Prog.logs_silent (trySendInChunks _ (upstreamRequest path hostname) _)).bind
      intro result
      split
      · apply Prog.Logs.ret_bind (logs_logSocket hthread hfd (by decide) (by decide))
        exact (Prog.logs_silent (closeIfOpen cacheFile)).bind fun _ ↦ .ret _
      · exact loggedRelayResponse_logs hthread hreread hfd hstring hlength _ _ _

theorem loggedServeGrant_logs (cacheFile : Option FileHandle) (grant : Grant)
    (hname : ∀ record, grant.record = some record → record.name.length < cacheHashLength)
    (serverAddress : Address) :
    LogsLike threadId
      (loggedServeGrant threadId reread fuel cacheFile job grant serverAddress path hostname)
      (serveGrant fuel cacheFile job grant serverAddress path hostname) := by
  have hcache : LogsLike threadId (logSocket threadId job (text "cache: " ++ hitOrMiss grant))
      (.ret ()) := by
    unfold hitOrMiss
    split <;> exact logs_logSocket hthread hfd (by decide) (by decide)
  apply Prog.Logs.ret_bind hcache
  unfold serveGrant
  split
  · exact (Prog.logs_silent (nonNullRecord grant.record)).bind fun record ↦
      .call fun _ _ ↦ .ret _
  · cases grant with
    | unavailable record => exact loggedFetch_logs hthread hreread hfd hstring hlength hpath _ _ _
    | shouldRead record =>
        apply logs_sprintf (cacheFilePath_length (hname record rfl))
        refine Prog.logs_perform_bind fun cacheFile _ ↦ ?_
        cases cacheFile with
        | none => exact loggedFetch_logs hthread hreread hfd hstring hlength hpath _ _ _
        | some file => exact loggedServeCached_logs hthread hreread hfd hstring hlength record file
    | shouldWrite record =>
        apply logs_sprintf (cacheFilePath_length (hname record rfl))
        exact Prog.logs_perform_bind fun cacheFile _ ↦
          loggedFetch_logs hthread hreread hfd hstring hlength hpath _ _ _

theorem loggedHandleValidRequest_logs (cacheFile : Option FileHandle) (serverAddress : Address) :
    LogsLike threadId
      (loggedHandleValidRequest threadId reread fuel cacheFile job serverAddress path hostname)
      (handleValidRequest fuel cacheFile job serverAddress path hostname) := by
  have hsizes : responseBufferSize = 4097 ∧ maxUrlSize = 2048 ∧ maxNameLength = 256 :=
    ⟨rfl, rfl, rfl⟩
  unfold loggedHandleValidRequest handleValidRequest
  split
  · exact loggedServeGrant_logs hthread hreread hfd hstring hlength hpath _ _ (by rintro _ ⟨⟩) _
  · apply logs_sprintf
    · rw [List.length_append]
      omega
    · exact Prog.logs_perform_bind fun grant hgrant ↦
        loggedServeGrant_logs hthread hreread hfd hstring hlength hpath _ _ hgrant _

end

/-! ## Answering -/

omit hthread hfd in
theorem copyIntoBuffer_ok {target content : List UInt8}
    (h : target.length + content.length < responseBufferSize) :
    copyIntoBuffer target content = .ret (target ++ content) := by
  rw [copyIntoBuffer, sprintf_ok (by rwa [List.length_append])]
  rfl

theorem loggedSendReply_logs (addresses : List Address) (keepAlive : Bool) {reply : List UInt8}
    (hreply : reply.length ≤ 100) :
    LogsLike threadId (loggedSendReply threadId job addresses keepAlive reply)
      (sendReply job addresses (reply ++ closeHeader keepAlive)) := by
  have hclose : (text "Proxy-Connection: close\r\n\r\n").length = 27 := rfl
  have hsize : responseBufferSize = 4097 := rfl
  have happend : appendCloseHeader keepAlive reply = .ret (reply ++ closeHeader keepAlive) := by
    cases keepAlive with
    | true => exact copyIntoBuffer_ok (by omega)
    | false => rw [closeHeader, if_neg Bool.false_ne_true, List.append_nil]; rfl
  unfold loggedSendReply
  rw [happend]
  apply (Prog.logs_silent (trySendInChunks _ _ _)).bind
  intro result
  have hunsent : LogsLike threadId (logUnsent threadId job result) (.ret ()) := by
    unfold logUnsent
    split
    · exact logs_logSocket hthread hfd (by decide) (by decide)
    · exact .ret ()
  exact Prog.Logs.ret_bind hunsent (Prog.logs_silent _)

/-- The texts of a parsed request fit the buffers that they are copied to. -/
structure ParsedTexts (out : ParseOut) : Prop where
  hostname : (cstr out.hostname 0).length ≤ maxNameLength
  path : (cstr out.path 0).length ≤ maxUrlSize

variable (hrequest : job.request.length ≤ jobRequestBufferSize + 1)
include hreread hrequest

theorem loggedAnswerRequest_logs {out : ParseOut} (hout : ParsedTexts out)
    {version : List UInt8} (hversion : version.length ≤ 20) :
    LogsLike threadId (loggedAnswerRequest threadId reread fuel locals table job out version)
      (answerRequest fuel locals table job out version) := by
  have hsizes : responseBufferSize = 4097 ∧ maxNameLength = 256 ∧ nameBufferSize = 257 ∧
      jobRequestBufferSize = 4096 := ⟨rfl, rfl, rfl, rfl⟩
  have hhost := hout.hostname
  have hstring := nul_notMem_cstr out.hostname 0
  have hcopy (content : List UInt8) (hcontent : content.length ≤ 30) :
      copyIntoBuffer version content = .ret (version ++ content) :=
    copyIntoBuffer_ok (by omega)
  have hreply (content : List UInt8) (hcontent : content.length ≤ 30) :
      (version ++ content).length ≤ 100 := by
    rw [List.length_append]
    omega
  have hline : LogsLike threadId (logSocket threadId job (cstr job.request 0)) (.ret ()) := by
    have hlength := length_cstr_le job.request 0
    exact logs_logSocket hthread hfd (by omega) (nul_notMem_cstr _ _)
  have hblocked : LogsLike threadId
      (logSocket threadId job (text "blocked access to host: " ++ cstr out.hostname 0))
      (.ret ()) := by
    have hprefix : (text "blocked access to host: ").length = 24 := rfl
    have htext : (0 : UInt8) ∉ text "blocked access to host: " := by decide
    apply logs_logSocket hthread hfd
    · rw [List.length_append]
      omega
    · rw [List.mem_append, not_or]
      exact ⟨htext, hstring⟩
  unfold loggedAnswerRequest
  rw [copyIntoBuffer_ok (by rw [List.length_nil]; omega), List.nil_append, Prog.ret_bind]
  apply Prog.Logs.ret_bind hline
  have hresolve : LogsLike threadId (loggedResolveHost table (cstr out.hostname 0))
      (resolveHost table (cstr out.hostname 0)) :=
    logs_sprintf (by omega) (Prog.logs_silent _)
  apply hresolve.bind
  rintro ⟨status, addresses⟩
  split
  · rw [hcopy (text "405 Method Not Allowed\r\n") (by decide)]
    exact loggedSendReply_logs hthread hfd _ _ (hreply _ (by decide))
  · cases status with
    | blocked =>
        simp only
        rw [hcopy (text "403 Forbidden\r\n") (by decide), Prog.ret_bind]
        apply Prog.Logs.ret_bind hblocked
        exact loggedSendReply_logs hthread hfd _ _ (hreply _ (by decide))
    | notFound =>
        simp only
        rw [hcopy (text "404 Not Found\r\n") (by decide)]
        exact loggedSendReply_logs hthread hfd _ _ (hreply _ (by decide))
    | error => exact loggedSendReply_logs hthread hfd _ _ (by omega)
    | ok =>
        cases addresses with
        | nil => exact .halt _
        | cons address rest =>
            apply (loggedHandleValidRequest_logs hthread hreread hfd hstring hhost hout.path
              locals.cacheFile address).bind
            exact fun _ ↦ Prog.logs_silent _

theorem loggedRespond_logs {out : ParseOut} (hout : ParsedTexts out) (version : HttpVersion) :
    LogsLike threadId (loggedRespond threadId reread fuel locals table job out version)
      (respond fuel locals table job out version) := by
  have hrefuse (statusLine : List UInt8) (h : statusLine.length ≤ 50) :
      LogsLike threadId (loggedRefuse job statusLine) (do
        let _ ← trySendInChunks (.client job.clientSocketFd) statusLine statusLine.length
        .ret ()) := by
    have hsize : responseBufferSize = 4097 := rfl
    unfold loggedRefuse
    rw [copyIntoBuffer_ok (by rw [List.length_nil]; omega)]
    exact (Prog.logs_silent (trySendInChunks _ _ _)).bind fun _ ↦ .ret ()
  cases version with
  | malformed => exact hrefuse _ (by decide)
  | notSupported => exact hrefuse _ (by decide)
  | dotZero => exact loggedAnswerRequest_logs hthread hreread hfd hrequest hout (by decide)
  | dotOne => exact loggedAnswerRequest_logs hthread hreread hfd hrequest hout (by decide)

omit hreread in
theorem logRefused_logs (out : ParseOut) (version : HttpVersion) :
    LogsLike threadId (logRefused threadId job out version) (.ret ()) := by
  have hlength := length_cstr_le job.request 0
  have hsizes : (text "request-line:\n").length = 14 ∧
      (text "\n4xx response sent").length = 18 ∧ jobRequestBufferSize = 4096 := ⟨rfl, rfl, rfl⟩
  have htexts : (0 : UInt8) ∉ text "request-line:\n" ∧
      (0 : UInt8) ∉ text "\n4xx response sent" := by decide
  unfold logRefused
  split
  · apply logs_logSocket hthread hfd
    · simp only [List.length_append]
      omega
    · simp only [List.mem_append, not_or]
      exact ⟨⟨htexts.1, nul_notMem_cstr _ _⟩, htexts.2⟩
  · exact .ret ()

end

/-! ## The request of a job -/

/-- The jobs that a worker finds on the stacks: of a client, with all calls so far that asked for
them to be pushed back, of an `accept` that failed, which every call leaves as it is, and of a
link. -/
def ServerJob (job : Job) : Prop :=
  (∃ stream, clientStream.Reachable (job, stream)) ∨ job = jobConstruct (-1) ∨ IsPrefetchJob job

theorem Holds.bufferFits {held : List UInt8} (h : Holds job held) : BufferFits job := by
  have hfits := h.fits
  constructor
  · rw [h.request]
    simp
  · rw [h.request, List.length_append, List.length_cons, List.length_replicate]
    omega

theorem IsPrefetchJob.bufferFits (h : IsPrefetchJob job) : BufferFits job := by
  obtain ⟨hostname, foundLink, hfits, rfl⟩ := h
  obtain ⟨rest, hrequest⟩ := prefetchJob_request hfits
  refine ⟨by simp [hrequest], ?_⟩
  have hlength := dispatchRequest_length hfits
  simp only [prefetchJob, jobConstruct, strncpy, List.length_append, List.length_replicate,
    List.length_drop, List.length_take]
  omega

theorem parsedTexts_of_parse {request left : List UInt8} {status : Status} {out : ParseOut}
    (hnul : 0 ∈ request)
    (h : parseRequestString request locals.parseOut = .ok (status, left, out)) :
    ParsedTexts out := by
  obtain ⟨t, rest, rfl, ht⟩ := List.eq_append_cons_of_mem hnul
  have htext := parseText_of_parse ht h
  rcases parseText_decides (t := t) locals.buffersFit with ⟨-, result, hok, hfit⟩ | ⟨-, fault, hbad⟩
  · cases hok.symm.trans htext
    have hpath := (length_cstr_lt hfit.path_terminated).trans_eq hfit.path_length
    exact ⟨hfit.hostname_string, Nat.le_of_lt_succ hpath⟩
  · cases hbad.symm.trans htext

theorem parseRequestString_length {request : List UInt8} {out : ParseOut}
    {parsed : Status × List UInt8 × ParseOut} (h : parseRequestString request out = .ok parsed) :
    parsed.2.1.length = request.length := by
  unfold parseRequestString at h
  split at h
  · cases h
    rfl
  · simp only at h
    split at h
    · cases h
      exact List.length_set ..
    · split at h
      · cases h
        exact List.length_set ..
      · split at h
        · cases h
          exact List.length_set ..
        · unfold parseUrlAndHeaders at h
          split at h
          · cases h
          · simp only at h
            split at h
            · cases h
              simp only [List.length_set]
            · obtain ⟨out₁, -, h⟩ := Fallible.bind_eq_ok.mp h
              obtain ⟨out₂, -, h⟩ := Fallible.bind_eq_ok.mp h
              cases h
              simp only [List.length_set]

section

variable (hthread : InIntRange threadId) (hreread : RereadFits reread)
  (hfd : InIntRange job.clientSocketFd)
include hthread hreread hfd

theorem loggedParseJob_logs (hjob : BufferFits job) :
    LogsLike threadId (loggedParseJob threadId reread fuel locals table job)
      (parseJob fuel locals table job) := by
  unfold loggedParseJob parseJob
  cases hparse : parseRequestString job.request locals.parseOut with
  | error fault => exact .halt fault
  | ok parsed =>
      obtain ⟨status, request, out⟩ := parsed
      have htexts := parsedTexts_of_parse hjob.terminated hparse
      simp only [Prog.lift_ok, Prog.ret_bind]
      split
      · exact .ret _
      · let left : Job := { job with request := request }
        have hfd' : InIntRange left.clientSocketFd := hfd
        have hlength : left.request.length ≤ jobRequestBufferSize + 1 :=
          (parseRequestString_length hparse).trans_le hjob.length
        apply (logRefused_logs hthread hfd' hlength out _).ret_bind
        exact (loggedRespond_logs hthread hreread hfd' hlength htexts _).bind fun _ ↦ .ret _

theorem loggedReadAndParseJob_logs (hjob : ServerJob job) :
    LogsLike threadId (loggedReadAndParseJob threadId reread fuel locals table job)
      (readAndParseJob fuel locals table job) := by
  unfold loggedReadAndParseJob readAndParseJob
  split
  next hnone =>
    rcases hjob with ⟨stream, hstream⟩ | rfl | hprefetch
    · exact absurd hnone (holdsStream_reachable hstream).socket
    · exact loggedParseJob_logs hthread hreread hfd (holds_jobConstruct _).bufferFits
    · exact loggedParseJob_logs hthread hreread hfd hprefetch.bufferFits
  next hclient =>
    refine Prog.logs_perform_bind fun received _ ↦ ?_
    split
    · exact .ret _
    · split
      · exact .ret _
      · refine Prog.logs_perform_bind fun now _ ↦ ?_
        rcases hjob with ⟨stream, hstream⟩ | rfl | ⟨hostname, foundLink, -, rfl⟩
        · have hholds := (holdsStream_reachable hstream).holds
          have hreceived : BufferFits (receiveRequest job received.bytes now) := by
            cases received with
            | error => exact (hholds.receive (Nat.zero_le _) now).bufferFits
            | data bytes hfits => exact (hholds.receive hfits now).bufferFits
          have hfd' : InIntRange (receiveRequest job received.bytes now).clientSocketFd := hfd
          exact loggedParseJob_logs hthread hreread hfd' hreceived
        · exact absurd rfl hclient
        · exact absurd rfl hclient

theorem loggedProcessJob_logs (hjob : ServerJob job) :
    LogsLike threadId (loggedProcessJob threadId reread fuel locals table job)
      (processJob fuel locals table job) := by
  unfold loggedProcessJob processJob
  split
  · exact loggedReadAndParseJob_logs hthread hreread hfd hjob
  · refine Prog.logs_perform_bind fun now _ ↦ ?_
    split
    · exact Prog.Logs.ret_bind (logs_logSocket hthread hfd (by decide) (by decide)) (.ret _)
    · exact loggedReadAndParseJob_logs hthread hreread hfd hjob

/-- With the texts that `worker.c` formats in buffers and its log, `process_job` makes the calls
that it makes without them and comes to the same end, so that no text is too long for its buffer;
and all that it writes to the log are lines of its thread.  A job that is read again after the push
has not been freed then. -/
theorem processJob_log_changesNothing {σ : Type} {P : Protocol Resp σ}
    (hnames : ∀ s op r, P.answers s op r → RecordNameFits op r) (hjob : ServerJob job) (fuel : ℕ)
    (locals : Locals) (table : BlockTable) (s s' : σ) (out : Except Fault (JobStatus × Job)) :
    (∀ tr, (P.withLog (List UInt8)).Run s (loggedProcessJob threadId reread fuel locals table job)
        tr s' out →
      P.Run s (processJob fuel locals table job) (callsIn tr) s' out ∧
        ∀ message ∈ messagesIn tr, LogLine threadId message) ∧
    ∀ tr, P.Run s (processJob fuel locals table job) tr s' out →
      ∃ tr', (P.withLog (List UInt8)).Run s (loggedProcessJob threadId reread fuel locals table job)
        tr' s' out ∧ callsIn tr' = tr := by
  have hlogs : LogsLike threadId (loggedProcessJob threadId reread fuel locals table job)
      (processJob fuel locals table job) := loggedProcessJob_logs hthread hreread hfd hjob
  exact ⟨fun tr hrun ↦ hlogs.run hnames hrun, fun tr hrun ↦ hlogs.exists_run hnames hrun⟩

end

/-- Surroundings of which only the names of records are known. -/
def anyShortNames : Protocol Resp Unit where
  requires _ _ := True
  answers _ := RecordNameFits
  next _ _ _ := ()

/-- A client has sent three bytes and nothing more for a hundred seconds. -/
theorem processJob_log_changesNothing_timedOut :
    ∃ (job : Job) (tr : List (Event (LogResp (List UInt8) Resp))),
      (anyShortNames.withLog (List UInt8)).Run ()
        (loggedProcessJob 100 (fun _ job ↦ job.request) 0 ⟨false, .malformed, false, none⟩ [] job)
        tr () (.ok (.terminate, job)) ∧
      messagesIn tr = [text "<100> socket:5 Timed Out\n"] ∧
      anyShortNames.Run () (processJob 0 ⟨false, .malformed, false, none⟩ [] job) (callsIn tr) ()
        (.ok (.terminate, job)) ∧ ∀ message ∈ messagesIn tr, LogLine 100 message := by
  let job := receiveRequest (jobConstruct 5) (text "GET") 100
  let locals : Locals := ⟨false, .malformed, false, none⟩
  have hholds : Holds job (text "GET") := (holds_jobConstruct 5).receive (by decide) 100
  have hline : lf ∉ cstr job.request 0 := by
    rw [hholds.string (by decide)]
    decide
  have hrun : anything.Run () (processJob 0 locals [] (jobConstruct 5))
      [⟨.recv (.client 5) jobRequestBufferSize true, .data (text "GET") (by decide)⟩,
        ⟨.time, (100 : ℕ)⟩] () (.ok (.enqueue, job)) := by
    apply run_processJob_new (by decide) (by decide) (by decide) trivial trivial
    rw [parseJob_waits hline (by rw [hholds.requestTail]; decide)]
    exact .ret _
  have hinit : clientStream.Reachable (jobConstruct 5, []) := .init ⟨⟨5, by decide, rfl⟩, rfl⟩
  have hcall : clientStream.Reachable (job, text "GET") :=
    hinit.step ⟨⟨0, _, [], hrun⟩, by simp [streamOf, fromClient, RecvResult.bytes]⟩
  have hlogged : (anyShortNames.withLog (List UInt8)).Run ()
      (loggedProcessJob 100 (fun _ job ↦ job.request) 0 locals [] job)
        [⟨.call .time, (200 : ℕ)⟩, ⟨.log (text "<100> socket:5 Timed Out\n"), ()⟩] ()
          (.ok (.terminate, job)) := by
    have hset : job.expirationTime ≠ 0 := by decide
    have hexpired : job.expirationTime < unsignedTime 200 := by decide
    have hline : socketMark 100 job ++ (text "Timed Out" ++ [lf]) =
        text "<100> socket:5 Timed Out\n" := by decide
    rw [loggedProcessJob, if_neg hset]
    refine .call trivial ?_
    change Run _ () (if job.expirationTime < unsignedTime 200 then
      (do
        logSocket 100 job (text "Timed Out")
        .ret (.terminate, job)) else
          loggedReadAndParseJob 100 (fun _ job ↦ job.request) 0 locals [] job) _ () _
    rw [if_pos hexpired, logSocket, hline, logLine, sprintf_ok (by decide), Prog.lift_ok,
      Prog.ret_bind, Prog.say_bind]
    exact .call trivial (.ret _)
  have hreread : RereadFits fun _ job ↦ job.request := fun _ _ h ↦ h.bufferFits
  have hsame := (processJob_log_changesNothing (P := anyShortNames) (by decide) hreread
    (by decide) (fun _ _ _ h ↦ h) (.inl ⟨_, hcall⟩) 0 locals [] () () _).1 _ hlogged
  exact ⟨job, _, hlogged, rfl, hsame⟩

end HttpProxy
