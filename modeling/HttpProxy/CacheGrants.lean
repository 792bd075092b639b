import HttpProxy.Traces

/-!
# Giving cache grants back

Along a run of `handle_valid_request` only five things matter for the grant it holds:
the answer of the cache, the closes, how many chunks of a response have been received,
and whether an open or a connection failed before that.  The grant is given back exactly
if nothing failed too early.
-/

namespace HttpProxy

open Interaction Protocol

/-- What is remembered of the calls so far. -/
structure GrantLog where
  grant : Option Grant
  closed : List (RecordRef × ActionStatus)
  chunks : ℕ
  openFailed : Bool
  lost : Bool
  deriving DecidableEq, Repr

def GrantLog.empty : GrantLog := ⟨none, [], 0, false, false⟩

/-- `lost` is set when the connection is refused, and when either side is found gone or
a send fails before a second chunk has been received. -/
def GrantLog.next (log : GrantLog) : (op : Op) → Resp op → GrantLog
  | .cacheRecordGetOrCreate _, grant => { log with grant := some grant }
  | .cacheRecordClose record status, _ =>
      { log with closed := log.closed ++ [(record, status)] }
  | .recv (.server _) _ _, _ => { log with chunks := log.chunks + 1 }
  | .fopen _ _, none => { log with openFailed := true }
  | .connect _ _, false => { log with lost := true }
  | .peek _, received =>
      if received.length = 0 ∧ log.chunks ≤ 1 then { log with lost := true } else log
  | .send _ _, none => if log.chunks ≤ 1 then { log with lost := true } else log
  | _, _ => log

def logging : Protocol Resp GrantLog where
  requires _ _ := True
  answers _ _ _ := True
  next := GrantLog.next

variable {fuel : ℕ} {log : GrantLog} {job : Job} {socket : Socket} {file : FileHandle}
  {hostname : List UInt8}

/-! ## Parts that do not touch the grant -/

theorem keeps_dispatchPrefetchJobs (cachedResponse : Option FileHandle) :
    logging.Keeps (dispatchPrefetchJobs fuel cachedResponse hostname) (fun log' _ ↦ log' = log)
      log := by
  apply keeps_of_calls id (dispatchPrefetchJobs_calls _ _ _) (fun _ _ _ ↦ trivial)
  intro log op hop r
  cases op <;> first | rfl | cases hop

/-- A send that does not go through is remembered while the first chunk is on its way. -/
def GrantLog.lose (log : GrantLog) : GrantLog :=
  if log.chunks ≤ 1 then { log with lost := true } else log

def Sends (log log' : GrantLog) (out : Except Fault Status) : Prop :=
  out = .ok .success ∧ log' = log ∨ out = .ok .fail ∧ log' = log.lose

theorem keeps_sendLoop (rest : List UInt8) (hfuel : rest.length ≤ fuel) :
    logging.Keeps (sendLoop socket fuel rest) (Sends log) log := by
  induction fuel generalizing rest with
  | zero =>
      obtain rfl : rest = [] := List.length_eq_zero_iff.mp (by omega)
      exact .inl ⟨rfl, rfl⟩
  | succ fuel ih =>
      cases rest with
      | nil => exact .inl ⟨rfl, rfl⟩
      | cons c rest =>
          simp only [sendLoop, peek_bind, send_bind, keeps_call]
          refine ⟨trivial, fun alive _ ↦ ?_⟩
          split
          next hgone =>
            refine .inr ⟨rfl, ?_⟩
            simp [logging, GrantLog.next, GrantLog.lose, hgone]
          next halive =>
            have hnext : logging.next log (.peek socket) alive = log := by
              simp [logging, GrantLog.next, halive]
            rw [hnext]
            refine ⟨trivial, fun sent _ ↦ ?_⟩
            cases sent with
            | none => exact .inr ⟨rfl, rfl⟩
            | some n =>
                have hpos := n.property.1
                apply ih
                simp only [List.length_drop, List.length_cons] at hfuel ⊢
                omega

theorem keeps_trySendInChunks (buffer : List UInt8) (length : ℤ) :
    logging.Keeps (trySendInChunks socket buffer length) (Sends log) log := by
  unfold trySendInChunks
  split
  · exact .inl ⟨rfl, rfl⟩
  · exact keeps_sendLoop _ (List.length_take_le _ _)

theorem keeps_cacheAndSend (cacheFile : Option FileHandle) (buffer : List UInt8) (length : ℤ) :
    logging.Keeps (cacheAndSend socket cacheFile buffer length)
      (fun log' out ↦ (∃ fault, out = .error fault ∧ log' = log) ∨ Sends log log' out) log := by
  have hsend : logging.Keeps (trySendInChunks socket buffer length)
      (fun log' out ↦ (∃ fault, out = .error fault ∧ log' = log) ∨ Sends log log' out) log :=
    (keeps_trySendInChunks buffer length).mono fun _ _ h ↦ .inr h
  cases cacheFile with
  | none => exact hsend
  | some file =>
      simp only [cacheAndSend]
      split
      · exact .inl ⟨_, rfl, rfl⟩
      · exact ⟨trivial, fun _ _ ↦ hsend⟩

def SameGrant (log log' : GrantLog) : Prop :=
  log' = { log with chunks := log'.chunks }

theorem SameGrant.trans {log₁ log₂ log₃ : GrantLog} (h : SameGrant log₁ log₂)
    (h' : SameGrant log₂ log₃) : SameGrant log₁ log₃ := by
  rw [SameGrant, h', h]

/-- Once a chunk has been received, what happens in the loop is forgotten. -/
theorem keeps_relayLoop {serverSocketFd : ℤ} (cacheFile : Option FileHandle)
    (contentLength contentRead : ℤ) (hchunks : 1 ≤ log.chunks) :
    logging.Keeps (relayLoop fuel serverSocketFd socket cacheFile contentLength contentRead)
      (fun log' _ ↦ SameGrant log log') log := by
  induction fuel generalizing log contentRead with
  | zero => rfl
  | succ fuel ih =>
      simp only [relayLoop, recv_bind]
      split
      · rw [keeps_call]
        refine ⟨trivial, fun received _ ↦ ?_⟩
        have hnext : SameGrant log { log with chunks := log.chunks + 1 } := rfl
        have hlose : { log with chunks := log.chunks + 1 }.lose =
            { log with chunks := log.chunks + 1 } := if_neg (by simp only; omega)
        split
        · exact hnext
        · apply (keeps_cacheAndSend cacheFile _ _).bind
          · rintro log' status (⟨fault, hfault, -⟩ | hsends)
            · simp at hfault
            · have hlog' : log' = { log with chunks := log.chunks + 1 } := by
                rcases hsends with ⟨-, rfl⟩ | ⟨-, rfl⟩
                · rfl
                · exact hlose
              subst hlog'
              split
              · exact hnext
              · exact (ih _ (by simp)).mono fun _ _ h ↦ hnext.trans h
          · rintro log' fault (⟨fault, -, rfl⟩ | ⟨hout, -⟩ | ⟨hout, -⟩)
            · exact hnext
            · simp at hout
            · simp at hout
      · rfl

/-! ## The paths of a request -/

/-- The close a miss owes: a writer gives its record back. -/
def writeClose : Grant → List (RecordRef × ActionStatus)
  | .shouldWrite record => [(record, .shouldWrite)]
  | _ => []

/-- How a fetch that starts with an empty log ends, if it returns. -/
def FetchEnds (grant : Grant) (log log' : GrantLog) (out : Except Fault Status) : Prop :=
  (∃ fault, out = .error fault) ∨
    log'.grant = log.grant ∧ log'.openFailed = log.openFailed ∧
      (log'.lost = true ∧ log'.closed = [] ∨
        log'.lost = false ∧ log'.closed = writeClose grant)

theorem keeps_finishWrite {record : RecordRef} (cacheFile : Option FileHandle) :
    logging.Keeps (finishWrite fuel job record cacheFile hostname)
      (fun log' out ↦ (∃ fault, out = .error fault) ∨
        log' = { log with closed := log.closed ++ [(record, .shouldWrite)] }) log := by
  have hscan : logging.Keeps (dispatchForClient fuel job cacheFile hostname)
      (fun log' _ ↦ log' = log) log := by
    unfold dispatchForClient
    split
    · exact keeps_dispatchPrefetchJobs cacheFile
    · rfl
  apply hscan.bind
  · rintro log' _ rfl
    cases cacheFile with
    | none => exact .inl ⟨_, rfl⟩
    | some file => exact ⟨trivial, fun _ _ ↦ ⟨trivial, fun _ _ ↦ .inr rfl⟩⟩
  · exact fun _ fault _ ↦ .inl ⟨fault, rfl⟩

theorem keeps_relayRest {serverSocketFd : ℤ} (cacheFile : Option FileHandle) (lengths : ℤ × ℤ)
    (bytesRead : ℤ) (hchunks : 1 ≤ log.chunks) :
    logging.Keeps (relayRest fuel serverSocketFd socket cacheFile lengths bytesRead)
      (fun log' _ ↦ SameGrant log log') log := by
  unfold relayRest
  split
  · rfl
  · split
    · exact keeps_relayLoop cacheFile _ _ hchunks
    · rfl

theorem keeps_finishRelay (grant : Grant) (cacheFile : Option FileHandle) :
    logging.Keeps (finishRelay fuel job grant cacheFile hostname)
      (fun log' out ↦ (∃ fault, out = .error fault) ∨
        log' = { log with closed := log.closed ++ writeClose grant }) log := by
  cases grant with
  | unavailable => exact .inr (by simp [writeClose])
  | shouldRead => exact .inr (by simp [writeClose])
  | shouldWrite record =>
      refine (keeps_finishWrite cacheFile).bind ?_ fun _ fault _ ↦ .inl ⟨fault, rfl⟩
      rintro log' ⟨⟩ (⟨fault, hfault⟩ | rfl)
      · simp at hfault
      · exact .inr rfl

theorem keeps_relayResponse {serverSocketFd : ℤ} (grant : Grant) (cacheFile : Option FileHandle)
    (hclosed : log.closed = []) (hchunks : log.chunks = 0) (hlost : log.lost = false) :
    logging.Keeps (relayResponse fuel job grant cacheFile serverSocketFd hostname)
      (FetchEnds grant log) log := by
  simp only [relayResponse, recv_bind, keeps_call]
  refine ⟨trivial, fun received _ ↦ ?_⟩
  have hnext : SameGrant log { log with chunks := log.chunks + 1 } := rfl
  cases parseResponseHeader (responseBuffer received.bytes) with
  | error fault => exact .inl ⟨fault, rfl⟩
  | ok lengths =>
      simp only [Prog.lift_ok, Prog.ret_bind]
      refine (keeps_cacheAndSend cacheFile _ _).bind ?_ fun _ fault _ ↦ .inl ⟨fault, rfl⟩
      rintro log' status (⟨fault, hfault, -⟩ | ⟨hstatus, rfl⟩ | ⟨hstatus, rfl⟩)
      · simp at hfault
      · obtain rfl : status = .success := by simpa using hstatus
        refine (keeps_relayRest cacheFile lengths _ ?_).bind ?_ fun _ fault _ ↦ .inl ⟨fault, rfl⟩
        · simp [logging, GrantLog.next]
        · rintro log' ⟨⟩ hsame
          refine ⟨trivial, fun _ _ ↦ (keeps_finishRelay grant cacheFile).mono ?_⟩
          rintro log'' out (hfault | rfl)
          · exact .inl hfault
          · have hlog' : log' = { log with chunks := log'.chunks } := hnext.trans hsame
            apply Or.inr
            rw [hlog']
            exact ⟨rfl, rfl, .inr ⟨hlost, by simp [logging, GrantLog.next, hclosed]⟩⟩
      · obtain rfl : status = .fail := by simpa using hstatus
        have hlose : (logging.next log (.recv (.server serverSocketFd) jobRequestBufferSize false)
            received).lose = { log with chunks := log.chunks + 1, lost := true } := by
          simp [logging, GrantLog.next, GrantLog.lose, hchunks]
        rw [hlose]
        exact .inr ⟨rfl, rfl, .inl ⟨rfl, hclosed⟩⟩

theorem keeps_closeIfOpen (cacheFile : Option FileHandle) :
    logging.Keeps (closeIfOpen cacheFile) (fun log' _ ↦ log' = log) log := by
  cases cacheFile with
  | none => rfl
  | some file => exact ⟨trivial, fun _ _ ↦ rfl⟩

theorem keeps_fetch {serverAddress : Address} {path : List UInt8} (grant : Grant)
    (cacheFile : Option FileHandle) (hclosed : log.closed = []) (hchunks : log.chunks = 0)
    (hlost : log.lost = false) :
    logging.Keeps (fetch fuel job grant cacheFile serverAddress path hostname)
      (FetchEnds grant log) log := by
  -- A fetch that is given up early has lost its connection.
  have hgive (log' : GrantLog) (h : log' = { log with lost := true }) :
      logging.Keeps (closeIfOpen cacheFile >>= fun _ ↦ .ret Status.fail) (FetchEnds grant log)
        log' := by
    refine (keeps_closeIfOpen cacheFile).bind ?_ fun _ fault _ ↦ .inl ⟨fault, rfl⟩
    rintro _ ⟨⟩ rfl
    subst h
    exact .inr ⟨rfl, rfl, .inl ⟨rfl, hclosed⟩⟩
  simp only [fetch, newSocket_bind, connect_bind, keeps_call]
  refine ⟨trivial, fun serverSocketFd _ ↦ ⟨trivial, fun connected _ ↦ ?_⟩⟩
  cases connected with
  | false => exact hgive _ rfl
  | true =>
      simp only [Bool.true_eq_false, if_false]
      refine (keeps_trySendInChunks _ _).bind ?_ fun _ fault _ ↦ .inl ⟨fault, rfl⟩
      rintro log' status (⟨hstatus, rfl⟩ | ⟨hstatus, rfl⟩)
      · obtain rfl : status = .success := by simpa using hstatus
        exact keeps_relayResponse grant cacheFile hclosed hchunks hlost
      · obtain rfl : status = .fail := by simpa using hstatus
        exact hgive _ (by simp [logging, GrantLog.next, GrantLog.lose, hchunks])

theorem lose_eq (log : GrantLog) : log.lose = { log with lost := log.lose.lost } := by
  unfold GrantLog.lose
  split <;> rfl

theorem keeps_sendCachedLoop :
    logging.Keeps (sendCachedLoop fuel socket file)
      (fun log' _ ↦ log' = { log with lost := log'.lost }) log := by
  induction fuel with
  | zero => rfl
  | succ fuel ih =>
      simp only [sendCachedLoop, fread_bind, keeps_call]
      refine ⟨trivial, fun bytes _ ↦ ?_⟩
      split
      · rfl
      · apply (keeps_trySendInChunks _ _).bind
        · rintro log' status (⟨hstatus, rfl⟩ | ⟨hstatus, rfl⟩)
          · obtain rfl : status = .success := by simpa using hstatus
            exact ih
          · obtain rfl : status = .fail := by simpa using hstatus
            exact lose_eq log
        · rintro log' fault (⟨hout, -⟩ | ⟨hout, -⟩) <;> simp at hout

theorem keeps_serveCached {record : RecordRef} :
    logging.Keeps (serveCached fuel job record file hostname)
      (fun log' out ↦ (∃ fault, out = .error fault) ∨ log'.grant = log.grant ∧
        log'.openFailed = log.openFailed ∧
        log'.closed = log.closed ++ [(record, .shouldRead)]) log := by
  refine keeps_sendCachedLoop.bind ?_ fun _ fault _ ↦ .inl ⟨fault, rfl⟩
  intro log' status hlog'
  rw [hlog']
  simp only [fclose_bind, cacheRecordClose_bind]
  split
  · exact ⟨trivial, fun _ _ ↦ ⟨trivial, fun _ _ ↦ .inr ⟨rfl, rfl, rfl⟩⟩⟩
  · refine (keeps_dispatchPrefetchJobs _).bind ?_ fun _ fault _ ↦ .inl ⟨fault, rfl⟩
    rintro _ ⟨⟩ rfl
    exact ⟨trivial, fun _ _ ↦ ⟨trivial, fun _ _ ↦ .inr ⟨rfl, rfl, rfl⟩⟩⟩

/-! ## The request -/

/-- The grant a request was given has been closed once, with its own status. -/
def GivenBack (log : GrantLog) (grant : Grant) : Prop :=
  ∃ record, grant.record = some record ∧ log.closed = [(record, grant.action)]

/-- The surroundings did not fail the request where it has no way to give the grant
back: a reader's file could be opened, and a writer reached its server and sent the
first chunk on. -/
def NoEarlyFailure (log : GrantLog) : Grant → Prop
  | .unavailable _ => True
  | .shouldRead _ => log.openFailed = false
  | .shouldWrite _ => log.lost = false

/-- How a request with an open grant ends, if it returns. -/
def GrantEnds (grant : Grant) (log' : GrantLog) (out : Except Fault Status) : Prop :=
  (∃ fault, out = .error fault) ∨
    log'.grant = some grant ∧
      (grant.action ≠ .unavailable → (GivenBack log' grant ↔ NoEarlyFailure log' grant))

theorem keeps_serveGrant {serverAddress : Address} {path : List UInt8} (grant : Grant)
    (cacheFile : Option FileHandle) :
    logging.Keeps (serveGrant fuel cacheFile job grant serverAddress path hostname)
      (GrantEnds grant) { GrantLog.empty with grant := some grant } := by
  unfold serveGrant
  split
  next hprefetch =>
    cases grant with
    | unavailable record =>
        cases record with
        | none => exact .inl ⟨_, rfl⟩
        | some record => exact ⟨trivial, fun _ _ ↦ .inr ⟨rfl, fun h ↦ absurd rfl h⟩⟩
    | shouldRead record =>
        exact ⟨trivial, fun _ _ ↦ .inr ⟨rfl, fun _ ↦
          iff_of_true ⟨record, rfl, rfl⟩ rfl⟩⟩
    | shouldWrite record => exact absurd rfl hprefetch.2
  next =>
    cases grant with
    | unavailable record =>
        apply (keeps_fetch _ cacheFile rfl rfl rfl).mono
        rintro log' out (hfault | ⟨hgrant, -⟩)
        · exact .inl hfault
        · exact .inr ⟨hgrant, fun h ↦ absurd rfl h⟩
    | shouldRead record =>
        simp only [fopen_bind, keeps_call]
        refine ⟨trivial, fun opened _ ↦ ?_⟩
        cases opened with
        | some file =>
            apply keeps_serveCached.mono
            rintro log' out (hfault | ⟨hgrant, hopen, hclosed⟩)
            · exact .inl hfault
            · exact .inr ⟨hgrant, fun _ ↦ iff_of_true ⟨record, rfl, hclosed⟩ hopen⟩
        | none =>
            apply (keeps_fetch _ none rfl rfl rfl).mono
            rintro log' out (hfault | ⟨hgrant, hopen, hend⟩)
            · exact .inl hfault
            · refine .inr ⟨hgrant, fun _ ↦ iff_of_false ?_ ?_⟩
              · rintro ⟨record, -, hclosed⟩
                rcases hend with ⟨-, hend⟩ | ⟨-, hend⟩ <;> simp [hend, writeClose] at hclosed
              · simp [NoEarlyFailure, hopen, logging, GrantLog.next]
    | shouldWrite record =>
        simp only [fopen_bind, keeps_call]
        refine ⟨trivial, fun opened _ ↦ ?_⟩
        have hstart : logging.Keeps (fetch fuel job (.shouldWrite record) opened serverAddress path
            hostname) (FetchEnds (.shouldWrite record) (logging.next { GrantLog.empty with
              grant := some (.shouldWrite record) } (.fopen (cacheFilePath record) .write) opened))
            (logging.next { GrantLog.empty with
              grant := some (.shouldWrite record) } (.fopen (cacheFilePath record) .write)
                opened) := by
          cases opened with
          | none => exact keeps_fetch _ none rfl rfl rfl
          | some file => exact keeps_fetch _ (some file) rfl rfl rfl
        apply hstart.mono
        rintro log' out (hfault | ⟨hgrant, -, hend⟩)
        · exact .inl hfault
        · refine .inr ⟨?_, fun _ ↦ ?_⟩
          · cases opened with
            | none => exact hgrant
            | some file => exact hgrant
          · rcases hend with ⟨hlost, hclosed⟩ | ⟨hlost, hclosed⟩
            · refine iff_of_false ?_ (by simp [NoEarlyFailure, hlost])
              rintro ⟨record, -, h⟩
              simp [hclosed] at h
            · exact iff_of_true ⟨record, rfl, hclosed⟩ hlost

theorem keeps_handleValidRequest {serverAddress : Address} {path : List UInt8}
    (cacheFile : Option FileHandle) :
    logging.Keeps (handleValidRequest fuel cacheFile job serverAddress path hostname)
      (fun log' out ↦ (∃ fault, out = .error fault) ∨ log'.grant = none ∨
        ∃ grant, GrantEnds grant log' out) GrantLog.empty := by
  unfold handleValidRequest
  split
  · unfold serveGrant
    split
    · exact .inl ⟨_, rfl⟩
    · apply (keeps_fetch (.unavailable none) cacheFile rfl rfl rfl).mono
      rintro log' out (hfault | ⟨hgrant, -⟩)
      · exact .inl hfault
      · exact .inr (.inl hgrant)
  · exact ⟨trivial, fun grant _ ↦
      (keeps_serveGrant grant cacheFile).mono fun _ _ h ↦ .inr (.inr ⟨grant, h⟩)⟩

/-- A request that returns has given its grant back if and only if nothing failed before
it had a way to. -/
theorem grant_given_back_iff {fuel : ℕ} {cacheFile : Option FileHandle} {job : Job}
    {serverAddress : Address} {path hostname : List UInt8} {tr : Trace} {log : GrantLog}
    {status : Status} {grant : Grant}
    (hrun : logging.Run GrantLog.empty
      (handleValidRequest fuel cacheFile job serverAddress path hostname) tr log (.ok status))
    (hgrant : log.grant = some grant) (haction : grant.action ≠ .unavailable) :
    GivenBack log grant ↔ NoEarlyFailure log grant := by
  rcases hrun.keeps (keeps_handleValidRequest cacheFile) with
    ⟨fault, hfault⟩ | hnone | ⟨grant', ⟨fault, hfault⟩ | ⟨hsome, hiff⟩⟩
  · simp at hfault
  · simp [hnone] at hgrant
  · simp at hfault
  · obtain rfl : grant' = grant := by simpa [hsome] using hgrant
    exact hiff haction

/-- The run of a client's request for `http://a/` that gets a write grant and then finds
no server. -/
theorem run_refused_connection :
    logging.Run GrantLog.empty
      (handleValidRequest 1 none (jobConstruct 3) ⟨10, 0, 0, 1, 80⟩ (text "/") (text "a"))
      [⟨.cacheRecordGetOrCreate (text "a/"), .shouldWrite ⟨0, text "k"⟩⟩,
        ⟨.fopen (text "./cache/k") .write, some 5⟩, ⟨.socket, (4 : ℤ)⟩,
        ⟨.connect 4 ⟨10, 0, 0, 1, 80⟩, false⟩, ⟨.fclose 5, ()⟩]
      ⟨some (.shouldWrite ⟨0, text "k"⟩), [], 0, false, true⟩ (.ok .fail) := by
  exact .call trivial (.call trivial (.call trivial (.call trivial (.call trivial (.ret _)))))

theorem grant_given_back_iff_refused_connection :
    GivenBack ⟨some (.shouldWrite ⟨0, text "k"⟩), [], 0, false, true⟩
        (.shouldWrite ⟨0, text "k"⟩) ↔
      NoEarlyFailure ⟨some (.shouldWrite ⟨0, text "k"⟩), [], 0, false, true⟩
        (.shouldWrite ⟨0, text "k"⟩) :=
  grant_given_back_iff run_refused_connection rfl (by simp [Grant.action])

/-- A writer whose server refuses the connection keeps its grant. -/
theorem not_grant_always_given_back :
    ¬∀ (fuel : ℕ) (cacheFile : Option FileHandle) (job : Job) (serverAddress : Address)
      (path hostname : List UInt8) (tr : Trace) (log : GrantLog) (status : Status)
      (grant : Grant),
      logging.Run GrantLog.empty
          (handleValidRequest fuel cacheFile job serverAddress path hostname) tr log (.ok status) →
        log.grant = some grant → grant.action ≠ .unavailable → GivenBack log grant := by
  intro h
  obtain ⟨record, -, hclosed⟩ := h _ _ _ _ _ _ _ _ _ _ run_refused_connection rfl
    (by simp [Grant.action])
  simp at hclosed

end HttpProxy
