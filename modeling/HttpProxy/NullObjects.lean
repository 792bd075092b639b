import HttpProxy.RelayEnds

/-!
# Records and files that are not there

What `handle_valid_request` does with a NULL record or a NULL file.  The sockets, the server's
bytes and the files' contents are left open; the answers of the cache and of `fopen` are named.
-/

namespace HttpProxy

open CString Interaction Protocol

variable {grant : Grant} {opened cacheFile : Option FileHandle} {job : Job} {fuel : ℕ}
  {socket : Socket} {file : FileHandle} {serverAddress : Address} {path hostname : List UInt8}

/-- The faults of a NULL record that is read or closed, and of a NULL file that is read, moved
in or closed. -/
def NullObject (fault : Fault) : Prop := fault = .nullRecord ∨ fault = .nullFile

def OtherFault (fault : Fault) : Prop := ¬NullObject fault

/-- The faults of loops, lengths and buffers. -/
def PlainFault (fault : Fault) : Prop :=
  fault = .outOfFuel ∨ fault = .negativeLength ∨ fault = .outOfBounds

theorem PlainFault.other {fault : Fault} (h : PlainFault fault) : OtherFault fault := by
  rcases h with rfl | rfl | rfl <;> simp [OtherFault, NullObject]

theorem PlainFault.ne_signedOverflow {fault : Fault} (h : PlainFault fault) :
    fault ≠ .signedOverflow := by
  rcases h with rfl | rfl | rfl <;> simp

/-- The cache answers a lookup with this grant and `fopen` with this file, and everything else
is left open. -/
def answering (grant : Grant) (opened : Option FileHandle) : Protocol Resp Unit where
  requires _ _ := True
  answers _ op answer :=
    match op, answer with
    | .cacheRecordGetOrCreate _, answer => (answer : Grant) = grant
    | .fopen _ _, answer => (answer : Option FileHandle) = opened
    | _, _ => True
  next _ _ _ := ()

/-- No run of the request uses a NULL record or a NULL file. -/
def UsesNoNull (grant : Grant) (opened cacheFile : Option FileHandle) (job : Job)
    (serverAddress : Address) (path hostname : List UInt8) : Prop :=
  ∀ (fuel : ℕ) (tr : Trace) (fault : Fault), (answering grant opened).Run ()
    (handleValidRequest fuel cacheFile job serverAddress path hostname) tr () (.error fault) →
      OtherFault fault

/-! ## Code that has its record and its file -/

theorem sendLoop_halts (bytes : List UInt8) : (sendLoop socket fuel bytes).Halts PlainFault := by
  induction fuel generalizing bytes with
  | zero =>
      cases bytes with
      | nil => trivial
      | cons c rest => exact .inl rfl
  | succ fuel ih =>
      cases bytes with
      | nil => trivial
      | cons c rest =>
          simp only [sendLoop, peek_bind, send_bind, Prog.halts_call]
          intro alive
          split
          · trivial
          · intro sent
            cases sent with
            | none => trivial
            | some n => exact ih _

theorem trySendInChunks_halts (buffer : List UInt8) (length : ℤ) :
    (trySendInChunks socket buffer length).Halts PlainFault := by
  unfold trySendInChunks
  split
  · trivial
  · exact sendLoop_halts _

theorem cacheAndSend_halts (buffer : List UInt8) (length : ℤ) :
    (cacheAndSend socket cacheFile buffer length).Halts PlainFault := by
  cases cacheFile with
  | none => exact trySendInChunks_halts _ _
  | some file =>
      simp only [cacheAndSend]
      split
      · exact .inr (.inl rfl)
      · exact fun _ ↦ trySendInChunks_halts _ _

theorem findHrefLoop_halts (fileBuffer : List UInt8) :
    (findHrefLoop fuel file fileBuffer).Halts PlainFault := by
  induction fuel generalizing fileBuffer with
  | zero => exact .inl rfl
  | succ fuel ih =>
      simp only [findHrefLoop, fread_bind, Prog.halts_call]
      intro bytes
      split
      · trivial
      · obtain ⟨result, hscan, -⟩ := scanHref_first (bytes.val ++ fileBuffer.drop bytes.val.length)
        rw [hscan]
        cases result with
        | noLink => exact ih _
        | unclosed => trivial
        | link start closingQuote =>
            simp only [Prog.lift_ok, Prog.ret_bind]
            split
            · exact .inr (.inr rfl)
            · exact fun _ ↦ trivial

theorem dispatchLoop_halts : (dispatchLoop fuel file hostname).Halts PlainFault := by
  induction fuel with
  | zero => exact .inl rfl
  | succ fuel ih =>
      have hfind : (findHref fuel file).Halts PlainFault := fun _ ↦ findHrefLoop_halts _
      apply hfind.bind
      intro result
      cases result with
      | finished => trivial
      | fail => exact ih
      | success foundLink =>
          simp only
          split
          · exact fun _ ↦ ih
          · exact ih

theorem dispatchPrefetchJobs_halts :
    (dispatchPrefetchJobs fuel (some file) hostname).Halts PlainFault :=
  fun _ ↦ dispatchLoop_halts

theorem closeIfOpen_halts : (closeIfOpen cacheFile).Halts PlainFault := by
  cases cacheFile with
  | none => trivial
  | some file => exact fun _ ↦ trivial

theorem finishRelay_halts (hfile : grant.action = .shouldWrite → cacheFile ≠ none) :
    (finishRelay fuel job grant cacheFile hostname).Halts PlainFault := by
  cases grant with
  | unavailable record => trivial
  | shouldRead record => trivial
  | shouldWrite record =>
      obtain ⟨file, rfl⟩ := Option.ne_none_iff_exists'.mp (hfile rfl)
      have hscan : (dispatchForClient fuel job (some file) hostname).Halts PlainFault := by
        unfold dispatchForClient
        split
        · exact dispatchPrefetchJobs_halts
        · trivial
      have hfinish : (finishWrite fuel job record (some file) hostname).Halts PlainFault :=
        hscan.bind fun _ _ _ ↦ trivial
      exact hfinish.bind fun _ ↦ trivial

theorem sendCachedLoop_halts : (sendCachedLoop fuel socket file).Halts PlainFault := by
  induction fuel with
  | zero => exact .inl rfl
  | succ fuel ih =>
      simp only [sendCachedLoop, fread_bind, Prog.halts_call]
      intro bytes
      split
      · trivial
      · apply (trySendInChunks_halts _ _).bind
        intro result
        split
        · trivial
        · exact ih

theorem serveCached_halts {record : RecordRef} :
    (serveCached fuel job record file hostname).Halts PlainFault := by
  apply sendCachedLoop_halts.bind
  intro result
  split
  · exact fun _ _ ↦ trivial
  · exact dispatchPrefetchJobs_halts.bind fun _ _ _ ↦ trivial

theorem relayLoop_halts {serverSocketFd : ℤ} (contentLength contentRead : ℤ) :
    (relayLoop fuel serverSocketFd socket cacheFile contentLength contentRead).Halts
      OtherFault := by
  induction fuel generalizing contentRead with
  | zero => simp [relayLoop, OtherFault, NullObject]
  | succ fuel ih =>
      simp only [relayLoop, recv_bind]
      split
      · rw [Prog.halts_call]
        intro received
        split
        · simp [OtherFault, NullObject]
        · apply ((cacheAndSend_halts _ _).mono fun _ ↦ PlainFault.other).bind
          intro result
          split
          · trivial
          · exact ih _
      · trivial

theorem relayRest_halts {serverSocketFd : ℤ} (lengths : ℤ × ℤ) (bytesRead : ℤ) :
    (relayRest fuel serverSocketFd socket cacheFile lengths bytesRead).Halts OtherFault := by
  unfold relayRest
  split
  · simp [OtherFault, NullObject]
  · split
    · exact relayLoop_halts _ _
    · trivial

theorem otherFault_of_relayFault {fault : Fault} (h : RelayFault fault) : OtherFault fault := by
  rcases h with rfl | rfl | rfl <;> simp [OtherFault, NullObject]

theorem relayResponse_halts {serverSocketFd : ℤ}
    (hfile : grant.action = .shouldWrite → cacheFile ≠ none) :
    (relayResponse fuel job grant cacheFile serverSocketFd hostname).Halts OtherFault := by
  simp only [relayResponse, recv_bind, Prog.halts_call]
  intro received
  cases hparse : parseResponseHeader (responseBuffer received.bytes) with
  | error fault => exact otherFault_of_relayFault (relayFault_of_parse hparse)
  | ok lengths =>
      apply ((cacheAndSend_halts _ _).mono fun _ ↦ PlainFault.other).bind
      intro result
      split
      · trivial
      · apply (relayRest_halts _ _).bind
        exact fun _ _ ↦ (finishRelay_halts hfile).mono fun _ ↦ PlainFault.other

theorem fetch_halts (hfile : grant.action = .shouldWrite → cacheFile ≠ none) :
    (fetch fuel job grant cacheFile serverAddress path hostname).Halts OtherFault := by
  have hgive : (closeIfOpen cacheFile >>= fun _ ↦ .ret Status.fail).Halts OtherFault :=
    (closeIfOpen_halts.mono fun _ ↦ PlainFault.other).bind fun _ ↦ trivial
  simp only [fetch, newSocket_bind, connect_bind, Prog.halts_call]
  intro serverSocketFd connected
  split
  · exact hgive
  · apply ((trySendInChunks_halts _ _).mono fun _ ↦ PlainFault.other).bind
    intro result
    split
    · exact hgive
    · exact relayResponse_halts hfile

/-! ## The request -/

theorem serveGrant_noNull {granted : Grant} {tr : Trace} {fault : Fault}
    (husable : GrantUsable job grant opened)
    (h : (answering granted opened).Run ()
      (serveGrant fuel cacheFile job grant serverAddress path hostname) tr () (.error fault)) :
    OtherFault fault := by
  unfold serveGrant at h
  split at h
  next hprefetch =>
    obtain ⟨record, hrecord⟩ :=
      Option.ne_none_iff_exists'.mp (husable.record hprefetch.1 hprefetch.2)
    rw [hrecord] at h
    exact h.halts fun _ ↦ trivial
  next =>
    cases grant with
    | unavailable record => exact h.halts (fetch_halts (by simp [Grant.action]))
    | shouldRead record =>
        simp only [fopen_bind, run_call] at h
        obtain ⟨answer, tr, -, -, h⟩ := h
        cases answer with
        | none => exact h.halts (fetch_halts (by simp [Grant.action]))
        | some file => exact (h.halts serveCached_halts).other
    | shouldWrite record =>
        simp only [fopen_bind, run_call] at h
        obtain ⟨answer, tr, hanswer, -, h⟩ := h
        obtain rfl : answer = opened := hanswer
        exact h.halts (fetch_halts husable.file)

theorem handleValidRequest_noNull (husable : GrantUsable job (cacheAnswer path grant) opened) :
    UsesNoNull grant opened cacheFile job serverAddress path hostname := by
  intro fuel tr fault h
  unfold handleValidRequest at h
  unfold cacheAnswer at husable
  split at h
  next hquery =>
    rw [if_pos hquery] at husable
    exact serveGrant_noNull husable h
  next hquery =>
    rw [if_neg hquery] at husable
    simp only [cacheRecordGetOrCreate_bind, run_call] at h
    obtain ⟨answer, tr, hanswer, -, h⟩ := h
    obtain rfl : answer = grant := hanswer
    exact serveGrant_noNull husable h

/-! ## Code that does not -/

/-- A response that ends with its first byte. -/
def lineFeedResponse : List UInt8 := [lf]

theorem keeps_relayResponse_nullFile {record : RecordRef} {serverSocketFd : ℤ} {s : RelayState}
    (hs : s.pieces = [lineFeedResponse]) :
    (relaying grant opened true).Keeps
      (relayResponse fuel job (.shouldWrite record) none serverSocketFd hostname)
      (fun _ out ↦ out = .error .nullFile) s := by
  have hparse : parseResponseHeader (responseBuffer lineFeedResponse) = .ok (1, -1) :=
    parseResponseHeader_responseBuffer_iff.mpr ⟨rfl, by decide, rfl⟩
  have hchunk : s.chunk = lineFeedResponse := by rw [RelayState.chunk, hs]; rfl
  simp only [relayResponse, recv_bind, keeps_call]
  refine ⟨trivial, fun received hreceived ↦ ?_⟩
  obtain ⟨hbytes, hlength⟩ := received_kind hreceived (by rw [hs]; decide)
  rw [hbytes, hlength, hchunk, hparse]
  simp only [Prog.lift_ok, Prog.ret_bind]
  apply (keeps_cacheAndSend_kind none lineFeedResponse).bind
  · rintro s₁ status ⟨hstatus, -⟩
    obtain rfl : status = .success := by simpa using hstatus
    have hrest : relayRest fuel serverSocketFd (.client job.clientSocketFd) none (1, -1)
        lineFeedResponse.length = .ret () := by
      rw [relayRest, if_neg (by decide), if_neg (by decide)]
    rw [if_neg (by decide), hrest, Prog.ret_bind, close_bind, keeps_call]
    refine ⟨trivial, fun _ _ ↦ ?_⟩
    rw [finishRelay_none]
    rfl
  · rintro s₁ fault ⟨hfault, -⟩
    cases hfault

theorem keeps_serveGrant_nullFile {record : RecordRef} {initial : OpenFile} :
    (relaying grant none true).Keeps
      (serveGrant fuel cacheFile job (.shouldWrite record) serverAddress path hostname)
      (fun _ out ↦ out = .error .nullFile) (.start [lineFeedResponse] initial) := by
  unfold serveGrant
  rw [if_neg fun h ↦ h.2 rfl]
  refine ⟨trivial, fun opened hopened ↦ ?_⟩
  obtain rfl : opened = none := hopened
  simp only [Prog.bind, fetch, newSocket_bind, connect_bind, keeps_call]
  refine ⟨trivial, fun serverSocketFd _ ↦ ⟨trivial, fun connected hconnected ↦ ?_⟩⟩
  obtain rfl : connected = true := hconnected rfl
  rw [if_neg (by decide)]
  apply (keeps_trySendInChunks_kind _).bind
  · rintro s₁ status ⟨hstatus, rfl⟩
    obtain rfl : status = .success := by simpa using hstatus
    rw [if_neg (by decide)]
    exact keeps_relayResponse_nullFile rfl
  · rintro s₁ fault ⟨hfault, -⟩
    cases hfault

theorem keeps_serveGrant_nullRecord {granted : Grant} {initial : OpenFile}
    (hfd : job.clientSocketFd = -1) (haction : grant.action ≠ .shouldWrite)
    (hnone : grant.record = none) :
    (relaying granted opened true).Keeps
      (serveGrant fuel cacheFile job grant serverAddress path hostname)
      (fun _ out ↦ out = .error .nullRecord) (.start [lineFeedResponse] initial) := by
  unfold serveGrant
  rw [if_pos ⟨hfd, haction⟩, hnone]
  rfl

theorem answering_of_relaying {s : RelayState} {op : Op} {r : Resp op} {kind : Bool}
    (h : (relaying grant opened kind).answers s op r) :
    (answering grant opened).answers () op r := by
  cases op <;> first | exact h | trivial

/-- A fault that kind surroundings force is one that some run stops on. -/
theorem not_usesNoNull_of_keeps {fault : Fault} (hnull : NullObject fault)
    (h : (relaying grant opened true).Keeps
      (serveGrant 1 cacheFile job (cacheAnswer path grant) serverAddress path hostname)
      (fun _ out ↦ out = .error fault) (.start [lineFeedResponse] ⟨[], 0⟩)) :
    ¬UsesNoNull grant opened cacheFile job serverAddress path hostname := by
  intro hno
  obtain ⟨tr, s', out, hrun⟩ := exists_run (relaying_total true)
    (handleValidRequest 1 cacheFile job serverAddress path hostname)
    (.start [lineFeedResponse] ⟨[], 0⟩ : RelayState)
  obtain rfl := hrun.keeps (keeps_handleValidRequest_of_serveGrant h)
  have hfree : (answering grant opened).Run ()
      (handleValidRequest 1 cacheFile job serverAddress path hostname) tr () (.error fault) :=
    hrun.map (fun _ ↦ ()) (fun _ _ _ ↦ answering_of_relaying) fun _ _ _ ↦ rfl
  exact hno _ _ _ hfree hnull

/-- A request uses no NULL record and no NULL file exactly if a prefetch that may not write has
been given a record, and a writer has got its file. -/
theorem usesNoNull_iff :
    UsesNoNull grant opened cacheFile job serverAddress path hostname ↔
      GrantUsable job (cacheAnswer path grant) opened := by
  constructor
  · intro h
    constructor
    · intro hfd haction hnone
      exact not_usesNoNull_of_keeps (.inl rfl) (keeps_serveGrant_nullRecord hfd haction hnone) h
    · intro hwrite hopened
      subst hopened
      apply not_usesNoNull_of_keeps (.inr rfl) _ h
      cases hgrant : cacheAnswer path grant with
      | shouldWrite record => exact keeps_serveGrant_nullFile
      | unavailable record => simp [hgrant, Grant.action] at hwrite
      | shouldRead record => simp [hgrant, Grant.action] at hwrite
  · exact handleValidRequest_noNull

/-- A prefetch job for a link with a query closes a record it does not have. -/
theorem queryPrefetch_uses_null :
    ¬∀ (grant : Grant) (opened cacheFile : Option FileHandle) (job : Job)
      (serverAddress : Address) (path hostname : List UInt8),
      UsesNoNull grant opened cacheFile job serverAddress path hostname := by
  intro h
  have hno := h (.unavailable none) none none (jobConstruct (-1)) ⟨10, 0, 0, 1, 80⟩ (text "/?")
    (text "a")
  refine not_usesNoNull_of_keeps (.inl rfl) ?_ hno
  exact keeps_serveGrant_nullRecord rfl (by decide) (by decide)

end HttpProxy
