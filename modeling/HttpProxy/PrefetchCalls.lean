import HttpProxy.RequestBuffer

/-!
# What a prefetch job calls

`process_job` on a job without a client socket and on one with it.  Without one nothing is
sent to a client, no cached file is scanned and no job is pushed; with one, the jobs that
are pushed are requests short enough to be parsed at once.
-/

namespace HttpProxy

open CString Fallible Interaction

variable {fuel : ℕ} {locals : Locals} {table : BlockTable} {job : Job} {fd : ℤ}
  {hostname foundLink : List UInt8}

/-- What a prefetch job is built from: two strings that fit their buffers. -/
structure LinkFits (hostname foundLink : List UInt8) : Prop where
  hostname_string : 0 ∉ hostname
  hostname_length : hostname.length ≤ maxNameLength + 1
  link_string : 0 ∉ foundLink
  link_length : foundLink.length ≤ maxUrlSize

def IsPrefetchJob (job : Job) : Prop :=
  ∃ hostname foundLink, LinkFits hostname foundLink ∧ job = prefetchJob hostname foundLink

/-- The calls `process_job` may make on a job with the given socket. -/
def JobCalls (fd : ℤ) : Op → Prop
  | .recv (.client _) _ _ => fd ≠ -1
  | .peek (.client _) => fd ≠ -1
  | .send (.client _) _ => fd ≠ -1
  | .fopen _ .read => fd ≠ -1
  | .fread _ _ => fd ≠ -1
  | .fseek _ _ _ => fd ≠ -1
  | .indeterminate _ => fd ≠ -1
  | .jobStackPush job => fd ≠ -1 ∧ IsPrefetchJob job
  | _ => True

/-! ## Looking for links -/

theorem scanHref_link {buffer : List UInt8} {found : Option ℕ} {start closingQuote : ℕ}
    (h : scanHref fuel buffer found = .ok (.link start closingQuote)) :
    strchr buffer start 34 = some closingQuote := by
  induction fuel generalizing found with
  | zero => cases h
  | succ fuel ih =>
      cases found with
      | none => cases h
      | some foundH =>
          simp only [scanHref] at h
          split at h
          · split at h
            next quote hquote =>
              cases h
              exact hquote
            next => cases h
          · exact ih h

/-- Up to the closing quote there is no NUL. -/
theorem link_string {buffer : List UInt8} {start closingQuote : ℕ}
    (h : strchr buffer start 34 = some closingQuote) :
    0 ∉ (buffer.drop start).take (closingQuote - start) := by
  rw [strchr_of_ne_zero (by decide), Option.map_eq_some_iff] at h
  obtain ⟨n, hn, rfl⟩ := h
  obtain ⟨value, rest, hsplit, -, rfl⟩ := split_of_idxOf? hn
  have hbuffer : buffer.drop start =
      cstr buffer start ++ (buffer.drop start).dropWhile (· ≠ 0) :=
    List.takeWhile_append_dropWhile.symm
  rw [hbuffer, Nat.add_sub_cancel_left, List.take_append_of_le_length (by simp [hsplit])]
  intro hmem
  have hne := List.mem_takeWhile_imp (List.mem_of_mem_take hmem)
  simp at hne

theorem findHrefLoop_within (hfd : fd ≠ -1) (file : FileHandle) (fileBuffer : List UInt8) :
    (findHrefLoop fuel file fileBuffer).Within (JobCalls fd) fun result ↦
      ∀ link, result = .success link → 0 ∉ link ∧ link.length ≤ maxUrlSize := by
  induction fuel generalizing fileBuffer with
  | zero => trivial
  | succ fuel ih =>
      simp only [findHrefLoop, fread_bind, Prog.within_call]
      refine ⟨hfd, fun bytes ↦ ?_⟩
      split
      · rintro link ⟨⟩
      · generalize bytes.val ++ fileBuffer.drop bytes.val.length = buffer
        cases hscan : scanHref (buffer.length + 1) buffer (strchr buffer 0 104) with
        | error fault => trivial
        | ok result =>
            cases result with
            | noLink => exact ih _
            | unclosed => rintro link ⟨⟩
            | link start closingQuote =>
                simp only [Prog.lift_ok, Prog.ret_bind]
                split
                · trivial
                next hlen =>
                  refine ⟨hfd, fun _ link hlink ↦ ?_⟩
                  cases hlink
                  refine ⟨link_string (scanHref_link hscan), ?_⟩
                  exact (List.length_take_le _ _).trans (by omega)

theorem dispatchLoop_within (hfd : fd ≠ -1) (file : FileHandle) (hstring : 0 ∉ hostname)
    (hlength : hostname.length ≤ maxNameLength + 1) :
    (dispatchLoop fuel file hostname).Within (JobCalls fd) fun _ ↦ True := by
  induction fuel with
  | zero => trivial
  | succ fuel ih =>
      have hfind : (findHref fuel file).Within (JobCalls fd) fun result ↦
          ∀ link, result = .success link → 0 ∉ link ∧ link.length ≤ maxUrlSize :=
        ⟨hfd, fun _ ↦ findHrefLoop_within hfd _ _⟩
      refine hfind.bind fun result hresult ↦ ?_
      cases result with
      | finished => trivial
      | fail => exact ih
      | success foundLink =>
          obtain ⟨hlink, hlinkLength⟩ := hresult foundLink rfl
          simp only
          split
          · exact ⟨⟨hfd, _, _, ⟨hstring, hlength, hlink, hlinkLength⟩, rfl⟩, fun _ ↦ ih⟩
          · exact ih

theorem dispatchPrefetchJobs_within (hfd : fd ≠ -1) (cachedResponse : Option FileHandle)
    (hstring : 0 ∉ hostname) (hlength : hostname.length ≤ maxNameLength + 1) :
    (dispatchPrefetchJobs fuel cachedResponse hostname).Within (JobCalls fd) fun _ ↦ True := by
  cases cachedResponse with
  | none => trivial
  | some file => exact ⟨hfd, fun _ ↦ dispatchLoop_within hfd file hstring hlength⟩

/-! ## Sending and relaying -/

/-- Peeking at the socket and sending to it are among the calls of the job. -/
def MaySend (fd : ℤ) (socket : Socket) : Prop :=
  socket.fd ≠ -1 → ∀ op, SendsTo socket op → JobCalls fd op

theorem maySend_client (fd : ℤ) : MaySend fd (.client fd) := by
  rintro hfd op (rfl | ⟨bytes, rfl⟩)
  · exact hfd
  · exact hfd

theorem maySend_server (fd fd' : ℤ) : MaySend fd (.server fd') := by
  rintro - op (rfl | ⟨bytes, rfl⟩)
  · trivial
  · trivial

theorem trySendInChunks_within {socket : Socket} (h : MaySend fd socket) (buffer : List UInt8)
    (length : ℤ) : (trySendInChunks socket buffer length).Within (JobCalls fd) fun _ ↦ True := by
  by_cases hsocket : socket.fd = -1
  · rw [trySendInChunks, if_pos hsocket]
    trivial
  · exact (trySendInChunks_calls socket buffer length).within (h hsocket)

theorem cacheAndSend_within {socket : Socket} (h : MaySend fd socket)
    (cacheFile : Option FileHandle) (buffer : List UInt8) (length : ℤ) :
    (cacheAndSend socket cacheFile buffer length).Within (JobCalls fd) fun _ ↦ True := by
  cases cacheFile with
  | none => exact trySendInChunks_within h _ _
  | some file =>
      simp only [cacheAndSend]
      split
      · trivial
      · exact ⟨trivial, fun _ ↦ trySendInChunks_within h _ _⟩

theorem closeIfOpen_within (cacheFile : Option FileHandle) :
    (closeIfOpen cacheFile).Within (JobCalls fd) fun _ ↦ True := by
  cases cacheFile with
  | none => trivial
  | some file => exact ⟨trivial, fun _ ↦ trivial⟩

theorem nonNullFile_within (file : Option FileHandle) :
    (nonNullFile file).Within (JobCalls fd) fun _ ↦ True := by
  cases file <;> trivial

theorem nonNullRecord_within (record : Option RecordRef) :
    (nonNullRecord record).Within (JobCalls fd) fun _ ↦ True := by
  cases record <;> trivial

theorem relayLoop_within {socket : Socket} (h : MaySend fd socket) (serverSocketFd : ℤ)
    (cacheFile : Option FileHandle) (contentLength contentRead : ℤ) :
    (relayLoop fuel serverSocketFd socket cacheFile contentLength contentRead).Within (JobCalls fd)
      fun _ ↦ True := by
  induction fuel generalizing contentRead with
  | zero => trivial
  | succ fuel ih =>
      simp only [relayLoop]
      split
      · simp only [recv_bind, Prog.within_call]
        refine ⟨trivial, fun received ↦ ?_⟩
        split
        · trivial
        · refine (cacheAndSend_within h _ _ _).bind fun result _ ↦ ?_
          split
          · trivial
          · exact ih _
      · trivial

theorem relayRest_within {socket : Socket} (h : MaySend fd socket) (serverSocketFd : ℤ)
    (cacheFile : Option FileHandle) (lengths : ℤ × ℤ) (bytesRead : ℤ) :
    (relayRest fuel serverSocketFd socket cacheFile lengths bytesRead).Within (JobCalls fd)
      fun _ ↦ True := by
  unfold relayRest
  split
  · trivial
  · split
    · exact relayLoop_within h _ _ _ _
    · trivial

section

variable (hstring : 0 ∉ hostname) (hlength : hostname.length ≤ maxNameLength + 1)
include hstring hlength

/-- Only a job with a client scans what it has written. -/
theorem finishRelay_within (job : Job) (grant : Grant) (cacheFile : Option FileHandle) :
    (finishRelay fuel job grant cacheFile hostname).Within (JobCalls job.clientSocketFd)
      fun _ ↦ True := by
  cases grant with
  | shouldWrite record =>
      have hdispatch : (dispatchForClient fuel job cacheFile hostname).Within
          (JobCalls job.clientSocketFd) fun _ ↦ True := by
        unfold dispatchForClient
        split
        next hfd => exact dispatchPrefetchJobs_within hfd _ hstring hlength
        next => trivial
      have hfinish : (finishWrite fuel job record cacheFile hostname).Within
          (JobCalls job.clientSocketFd) fun _ ↦ True :=
        hdispatch.bind fun _ _ ↦ (nonNullFile_within cacheFile).bind fun file _ ↦
          ⟨trivial, fun _ ↦ ⟨trivial, fun _ ↦ trivial⟩⟩
      exact hfinish.bind fun _ _ ↦ trivial
  | _ => trivial

theorem relayResponse_within (job : Job) (grant : Grant) (cacheFile : Option FileHandle)
    (serverSocketFd : ℤ) :
    (relayResponse fuel job grant cacheFile serverSocketFd hostname).Within
      (JobCalls job.clientSocketFd) fun _ ↦ True := by
  simp only [relayResponse, recv_bind, Prog.within_call]
  refine ⟨trivial, fun received ↦ ?_⟩
  cases parseResponseHeader (responseBuffer received.bytes) with
  | error fault => trivial
  | ok lengths =>
      have hclient := maySend_client job.clientSocketFd
      refine (cacheAndSend_within hclient _ _ _).bind fun result _ ↦ ?_
      split
      · trivial
      · refine (relayRest_within hclient _ _ _ _).bind fun _ _ ↦ ?_
        exact ⟨trivial, fun _ ↦ finishRelay_within hstring hlength _ _ _⟩

theorem fetch_within (job : Job) (grant : Grant) (cacheFile : Option FileHandle)
    (serverAddress : Address) (path : List UInt8) :
    (fetch fuel job grant cacheFile serverAddress path hostname).Within
      (JobCalls job.clientSocketFd) fun _ ↦ True := by
  simp only [fetch, newSocket_bind, connect_bind, Prog.within_call]
  refine ⟨trivial, fun serverSocketFd ↦ ⟨trivial, fun connected ↦ ?_⟩⟩
  split
  · exact (closeIfOpen_within cacheFile).bind fun _ _ ↦ trivial
  · refine (trySendInChunks_within (maySend_server _ _) _ _).bind fun result _ ↦ ?_
    split
    · exact (closeIfOpen_within cacheFile).bind fun _ _ ↦ trivial
    · exact relayResponse_within hstring hlength _ _ _ _

theorem serveCached_within (job : Job) (hfd : job.clientSocketFd ≠ -1) (record : RecordRef)
    (cacheFile : FileHandle) :
    (serveCached fuel job record cacheFile hostname).Within (JobCalls job.clientSocketFd)
      fun _ ↦ True := by
  have hsend (fuel : ℕ) : (sendCachedLoop fuel (.client job.clientSocketFd) cacheFile).Within
      (JobCalls job.clientSocketFd) fun _ ↦ True := by
    induction fuel with
    | zero => trivial
    | succ fuel ih =>
        simp only [sendCachedLoop, fread_bind, Prog.within_call]
        refine ⟨hfd, fun bytes ↦ ?_⟩
        split
        · trivial
        · refine (trySendInChunks_within (maySend_client _) _ _).bind fun result _ ↦ ?_
          split
          · trivial
          · exact ih
  refine (hsend fuel).bind fun result _ ↦ ?_
  split
  · exact ⟨trivial, fun _ ↦ ⟨trivial, fun _ ↦ trivial⟩⟩
  · refine (dispatchPrefetchJobs_within hfd _ hstring hlength).bind fun _ _ ↦ ?_
    exact ⟨trivial, fun _ ↦ ⟨trivial, fun _ ↦ trivial⟩⟩

/-- A job without a client goes on with a write grant only. -/
theorem serveGrant_within (cacheFile : Option FileHandle) (job : Job) (grant : Grant)
    (serverAddress : Address) (path : List UInt8) :
    (serveGrant fuel cacheFile job grant serverAddress path hostname).Within
      (JobCalls job.clientSocketFd) fun _ ↦ True := by
  unfold serveGrant
  split
  next =>
    exact (nonNullRecord_within grant.record).bind fun record _ ↦ ⟨trivial, fun _ ↦ trivial⟩
  next hserve =>
    cases grant with
    | unavailable record => exact fetch_within hstring hlength _ _ _ _ _
    | shouldRead record =>
        have hfd : job.clientSocketFd ≠ -1 := fun hfd ↦ hserve ⟨hfd, nofun⟩
        simp only [fopen_bind, Prog.within_call]
        refine ⟨hfd, fun opened ↦ ?_⟩
        cases opened with
        | none => exact fetch_within hstring hlength _ _ _ _ _
        | some file => exact serveCached_within hstring hlength _ hfd _ _
    | shouldWrite record =>
        simp only [fopen_bind, Prog.within_call]
        exact ⟨trivial, fun opened ↦ fetch_within hstring hlength _ _ _ _ _⟩

theorem handleValidRequest_within (cacheFile : Option FileHandle) (job : Job)
    (serverAddress : Address) (path : List UInt8) :
    (handleValidRequest fuel cacheFile job serverAddress path hostname).Within
      (JobCalls job.clientSocketFd) fun _ ↦ True := by
  unfold handleValidRequest
  split
  · exact serveGrant_within hstring hlength _ _ _ _ _
  · exact ⟨trivial, fun grant ↦ serveGrant_within hstring hlength _ _ _ _ _⟩

end

/-! ## Answering -/

theorem checkAddresses_within (head l : List Address) :
    (checkAddresses table head l).Within (JobCalls fd) fun _ ↦ True := by
  induction l with
  | nil => trivial
  | cons address rest ih =>
      unfold checkAddresses
      split
      · cases rest with
        | nil => exact ⟨trivial, fun _ ↦ trivial⟩
        | cons next rest => exact ih
      · trivial

theorem resolveHost_within (hostname : List UInt8) :
    (resolveHost table hostname).Within (JobCalls fd) fun _ ↦ True := by
  unfold resolveHost
  split
  · trivial
  · simp only [getaddrinfo_bind, Prog.within_call]
    refine ⟨trivial, fun resolved ↦ ?_⟩
    cases resolved with
    | none => trivial
    | some addresses => exact checkAddresses_within _ _

theorem sendReply_within (job : Job) (addresses : List Address) (reply : List UInt8) :
    (sendReply job addresses reply).Within (JobCalls job.clientSocketFd) fun _ ↦ True :=
  (trySendInChunks_within (maySend_client _) _ _).bind fun _ _ ↦ ⟨trivial, fun _ ↦ trivial⟩

theorem answerRequest_within (job : Job) {out : ParseOut}
    (hout : out.hostname.length = maxNameLength + 1) (version : List UInt8) :
    (answerRequest fuel locals table job out version).Within (JobCalls job.clientSocketFd)
      fun _ ↦ True := by
  have hstring : 0 ∉ cstr out.hostname 0 := fun hmem ↦ by
    simpa using List.mem_takeWhile_imp hmem
  have hlength : (cstr out.hostname 0).length ≤ maxNameLength + 1 := by
    rw [← hout]
    exact (List.takeWhile_prefix _).length_le.trans (by simp)
  refine (resolveHost_within _).bind fun resolved _ ↦ ?_
  split
  · exact sendReply_within _ _ _
  · obtain ⟨status, addresses⟩ := resolved
    cases status with
    | blocked => exact sendReply_within _ _ _
    | notFound => exact sendReply_within _ _ _
    | error => exact sendReply_within _ _ _
    | ok =>
        cases addresses with
        | nil => trivial
        | cons address rest =>
            refine (handleValidRequest_within hstring hlength _ _ _ _).bind fun _ _ ↦ ?_
            exact ⟨trivial, fun _ ↦ trivial⟩

theorem respond_within (job : Job) {out : ParseOut}
    (hout : out.hostname.length = maxNameLength + 1) (version : HttpVersion) :
    (respond fuel locals table job out version).Within (JobCalls job.clientSocketFd)
      fun _ ↦ True := by
  cases version with
  | malformed => exact (trySendInChunks_within (maySend_client _) _ _).bind fun _ _ ↦ trivial
  | notSupported => exact (trySendInChunks_within (maySend_client _) _ _).bind fun _ _ ↦ trivial
  | dotZero => exact answerRequest_within _ hout _
  | dotOne => exact answerRequest_within _ hout _

/-! ## The request of a job -/

/-- A job without a client whose request has a complete line terminates. -/
def TerminatesPrefetch (job : Job) (result : JobStatus × Job) : Prop :=
  job.clientSocketFd = -1 → lf ∈ cstr job.request 0 → result.1 = .terminate

theorem parseJob_within (job : Job) :
    (parseJob fuel locals table job).Within (JobCalls job.clientSocketFd)
      fun result ↦ lf ∈ cstr job.request 0 → result.1 = .terminate := by
  unfold parseJob
  cases hparse : parseRequestString job.request locals.parseOut with
  | error fault => trivial
  | ok parsed =>
      obtain ⟨hlength, hstatus⟩ := parseRequestString_ok hparse
      simp only [Prog.lift_ok, Prog.ret_bind]
      split
      next hfail =>
        intro hline
        simp [hfail.1, hline] at hstatus
      next =>
        refine (respond_within _ (hlength.trans locals.hostname_length) _).bind fun _ _ ↦ ?_
        exact fun _ ↦ rfl

theorem processJob_within (fuel : ℕ) (locals : Locals) (table : BlockTable) (job : Job) :
    (processJob fuel locals table job).Within (JobCalls job.clientSocketFd)
      (TerminatesPrefetch job) := by
  have hread : (readAndParseJob fuel locals table job).Within (JobCalls job.clientSocketFd)
      (TerminatesPrefetch job) := by
    unfold readAndParseJob
    split
    next => exact (parseJob_within job).mono fun _ h _ ↦ h
    next hfd =>
      simp only [recv_bind, Prog.within_call]
      refine ⟨hfd, fun received ↦ ?_⟩
      split
      · exact fun h ↦ absurd h hfd
      · split
        · exact fun h ↦ absurd h hfd
        · simp only [time_bind, Prog.within_call]
          refine ⟨trivial, fun now ↦ ?_⟩
          exact (parseJob_within (receiveRequest job received.bytes now)).mono
            fun _ _ h ↦ absurd h hfd
  unfold processJob
  split
  · exact hread
  · simp only [time_bind, Prog.within_call]
    refine ⟨trivial, fun now ↦ ?_⟩
    split
    · exact fun _ _ ↦ rfl
    · exact hread

/-! ## The text of a prefetch job -/

theorem dispatchRequest_string (h : LinkFits hostname foundLink) :
    0 ∉ dispatchRequest hostname foundLink := by
  have hget : (0 : UInt8) ∉ text "GET http://" := by decide
  have hget' : (0 : UInt8) ∉ text "GET " := by decide
  have hversion : (0 : UInt8) ∉ text " HTTP/1.1\r\n\r\n" := by decide
  unfold dispatchRequest
  split
  · simp only [List.mem_append, not_or]
    exact ⟨⟨⟨hget, h.hostname_string⟩, h.link_string⟩, hversion⟩
  · simp only [List.mem_append, not_or]
    exact ⟨⟨hget', h.link_string⟩, hversion⟩

theorem dispatchRequest_length (h : LinkFits hostname foundLink) :
    (dispatchRequest hostname foundLink).length < jobRequestBufferSize := by
  have hhost := h.hostname_length
  have hlink := h.link_length
  have hget : (text "GET http://").length = 11 := rfl
  have hget' : (text "GET ").length = 4 := rfl
  have hversion : (text " HTTP/1.1\r\n\r\n").length = 13 := rfl
  have hsizes : maxNameLength = 256 ∧ maxUrlSize = 2048 ∧ jobRequestBufferSize = 4096 :=
    ⟨rfl, rfl, rfl⟩
  unfold dispatchRequest
  split
  · simp only [List.length_append]
    omega
  · simp only [List.length_append]
    omega

theorem prefetchJob_request (h : LinkFits hostname foundLink) :
    ∃ rest, (prefetchJob hostname foundLink).request =
      dispatchRequest hostname foundLink ++ 0 :: rest := by
  have hlength := dispatchRequest_length h
  obtain ⟨n, hn⟩ :
      ∃ n, jobRequestBufferSize - (dispatchRequest hostname foundLink).length = n + 1 :=
    ⟨_, (Nat.succ_pred_eq_of_pos (by omega)).symm⟩
  simp only [prefetchJob, strncpy]
  rw [List.take_of_length_le hlength.le, hn, List.replicate_succ, List.append_assoc,
    List.cons_append]
  exact ⟨_, rfl⟩

/-- A short request is in the job as a string. -/
theorem cstr_prefetchJob (h : LinkFits hostname foundLink) :
    cstr (prefetchJob hostname foundLink).request 0 = dispatchRequest hostname foundLink := by
  obtain ⟨rest, hrequest⟩ := prefetchJob_request h
  rw [hrequest, cstr_append_nul (dispatchRequest_string h)]

theorem prefetchJob_line (h : LinkFits hostname foundLink) :
    lf ∈ cstr (prefetchJob hostname foundLink).request 0 := by
  have hversion : lf ∈ text " HTTP/1.1\r\n\r\n" := by decide
  rw [cstr_prefetchJob h, dispatchRequest]
  split
  · exact List.mem_append_right _ hversion
  · exact List.mem_append_right _ hversion

/-- `process_job` on a prefetch job stays away from the clients, from `dispatch_prefetch_jobs`
and from the stacks, and terminates. -/
theorem prefetchJob_within (fuel : ℕ) (locals : Locals) (table : BlockTable) {job : Job}
    (h : IsPrefetchJob job) :
    (processJob fuel locals table job).Within (JobCalls (-1))
      fun result ↦ result.1 = .terminate := by
  obtain ⟨hostname, foundLink, hfits, rfl⟩ := h
  exact (processJob_within fuel locals table _).mono fun _ hend ↦ hend rfl (prefetchJob_line hfits)

end HttpProxy
