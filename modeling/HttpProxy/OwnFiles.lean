import HttpProxy.Traces

/-!
# Which files a request touches

`handle_valid_request` writes to a file and closes it through its variable `cache_file`.  The
variable is set where the cache grants something; without a grant it is used as it is, unless
the job has no client and stops before.
-/

namespace HttpProxy

open Interaction Protocol

variable {fuel : ℕ} {job : Job} {socket : Socket} {file : FileHandle}
  {cacheFile opened : Option FileHandle} {grant granted : Grant} {serverAddress : Address}
  {path hostname : List UInt8} {e : Event Resp} {tr : Trace} {mode : OpenMode}

/-- The call writes to the file or closes it. -/
def Touches (file : FileHandle) : Op → Prop
  | .fwrite file' _ => file' = file
  | .fclose file' => file' = file
  | _ => False

/-- Every file that is touched was opened before. -/
def OwnFilesOnly (tr : Trace) : Prop :=
  ∀ (before : Trace) (e : Event Resp) (after : Trace) (file : FileHandle),
    tr = before ++ e :: after → Touches file e.1 →
      ∃ path mode, ⟨.fopen path mode, some file⟩ ∈ before

/-- The cache answers a lookup with this grant, and everything else is left open. -/
def granting (grant : Grant) : Protocol Resp Unit where
  requires _ _ := True
  answers _ op answer :=
    match op, answer with
    | .cacheRecordGetOrCreate _, answer => (answer : Grant) = grant
    | _, _ => True
  next _ _ _ := ()

/-! ## The one file of a fetch -/

/-- No file but this one is touched. -/
def TouchesOnly (cacheFile : Option FileHandle) (op : Op) : Prop :=
  ∀ file, Touches file op → cacheFile = some file

theorem touchesOnly_of_sendsTo {op : Op} (h : SendsTo socket op) : TouchesOnly cacheFile op := by
  rcases h with rfl | ⟨bytes, rfl⟩ <;> exact fun _ ↦ False.elim

theorem touchesOnly_of_scansLinks {op : Op} (h : ScansLinks op) : TouchesOnly cacheFile op := by
  cases op <;> first | exact fun _ ↦ False.elim | cases h

theorem trySendInChunks_touches (buffer : List UInt8) (length : ℤ) :
    (trySendInChunks socket buffer length).Calls (TouchesOnly cacheFile) :=
  (trySendInChunks_calls _ _ _).mono fun _ ↦ touchesOnly_of_sendsTo

theorem dispatchPrefetchJobs_touches (cachedResponse : Option FileHandle) :
    (dispatchPrefetchJobs fuel cachedResponse hostname).Calls (TouchesOnly cacheFile) :=
  (dispatchPrefetchJobs_calls _ _ _).mono fun _ ↦ touchesOnly_of_scansLinks

theorem cacheAndSend_touches (buffer : List UInt8) (length : ℤ) :
    (cacheAndSend socket cacheFile buffer length).Calls (TouchesOnly cacheFile) := by
  cases cacheFile with
  | none => exact trySendInChunks_touches _ _
  | some file =>
      simp only [cacheAndSend]
      split
      · trivial
      · exact ⟨fun _ ↦ congrArg some, fun _ ↦ trySendInChunks_touches _ _⟩

theorem relayLoop_touches {serverSocketFd : ℤ} (contentLength contentRead : ℤ) :
    (relayLoop fuel serverSocketFd socket cacheFile contentLength contentRead).Calls
      (TouchesOnly cacheFile) := by
  induction fuel generalizing contentRead with
  | zero => trivial
  | succ fuel ih =>
      simp only [relayLoop, recv_bind]
      split
      · rw [Prog.calls_call]
        refine ⟨fun _ ↦ False.elim, fun received ↦ ?_⟩
        split
        · trivial
        · refine (cacheAndSend_touches _ _).bind fun result ↦ ?_
          split
          · trivial
          · exact ih _
      · trivial

theorem closeIfOpen_touches : (closeIfOpen cacheFile).Calls (TouchesOnly cacheFile) := by
  cases cacheFile with
  | none => trivial
  | some file => exact ⟨fun _ ↦ congrArg some, fun _ ↦ trivial⟩

theorem finishRelay_touches :
    (finishRelay fuel job grant cacheFile hostname).Calls (TouchesOnly cacheFile) := by
  cases grant with
  | unavailable => trivial
  | shouldRead => trivial
  | shouldWrite record =>
      simp only [finishRelay, finishWrite]
      refine Prog.Calls.bind (Prog.Calls.bind ?_ fun _ ↦ ?_) fun _ ↦ trivial
      · unfold dispatchForClient
        split
        · exact dispatchPrefetchJobs_touches _
        · trivial
      · cases cacheFile with
        | none => trivial
        | some file =>
            exact ⟨fun _ ↦ congrArg some, fun _ ↦ ⟨fun _ ↦ False.elim, fun _ ↦ trivial⟩⟩

theorem relayResponse_touches {serverSocketFd : ℤ} :
    (relayResponse fuel job grant cacheFile serverSocketFd hostname).Calls
      (TouchesOnly cacheFile) := by
  simp only [relayResponse, recv_bind, Prog.calls_call]
  refine ⟨fun _ ↦ False.elim, fun received ↦ ?_⟩
  cases parseResponseHeader (responseBuffer received.bytes) with
  | error fault => trivial
  | ok lengths =>
      refine (cacheAndSend_touches _ _).bind fun result ↦ ?_
      split
      · trivial
      · refine Prog.Calls.bind ?_ fun _ ↦ ⟨fun _ ↦ False.elim, fun _ ↦ finishRelay_touches⟩
        unfold relayRest
        split
        · trivial
        · split
          · exact relayLoop_touches _ _
          · trivial

theorem fetch_touches :
    (fetch fuel job grant cacheFile serverAddress path hostname).Calls
      (TouchesOnly cacheFile) := by
  simp only [fetch, newSocket_bind, connect_bind, Prog.calls_call]
  refine ⟨fun _ ↦ False.elim, fun serverSocketFd ↦ ⟨fun _ ↦ False.elim, fun connected ↦ ?_⟩⟩
  have hgive : (closeIfOpen cacheFile >>= fun _ ↦ .ret Status.fail).Calls
      (TouchesOnly cacheFile) := closeIfOpen_touches.bind fun _ ↦ trivial
  split
  · exact hgive
  · refine (trySendInChunks_touches _ _).bind fun result ↦ ?_
    split
    · exact hgive
    · exact relayResponse_touches

theorem serveCached_touches {record : RecordRef} :
    (serveCached fuel job record file hostname).Calls (TouchesOnly (some file)) := by
  have hclose (status : Status) : (fclose file >>= fun _ ↦
      cacheRecordClose record .shouldRead >>= fun _ ↦ .ret status).Calls
        (TouchesOnly (some file)) :=
    ⟨fun _ ↦ congrArg some, fun _ ↦ ⟨fun _ ↦ False.elim, fun _ ↦ trivial⟩⟩
  have hloop : (sendCachedLoop fuel (.client job.clientSocketFd) file).Calls
      (TouchesOnly (some file)) := by
    induction fuel with
    | zero => trivial
    | succ fuel ih =>
        simp only [sendCachedLoop, fread_bind, Prog.calls_call]
        refine ⟨fun _ ↦ False.elim, fun bytes ↦ ?_⟩
        split
        · trivial
        · refine (trySendInChunks_touches _ _).bind fun result ↦ ?_
          split
          · trivial
          · exact ih
  refine hloop.bind fun result ↦ ?_
  split
  · exact hclose .fail
  · exact (dispatchPrefetchJobs_touches _).bind fun _ ↦ hclose .success

/-! ## The files of a request -/

theorem OwnFilesOnly.of_none (h : ∀ e ∈ tr, TouchesOnly none e.1) : OwnFilesOnly tr := by
  rintro before e after file rfl htouch
  cases h e (by simp) file htouch

theorem OwnFilesOnly.cons (h : OwnFilesOnly tr) (he : TouchesOnly none e.1) :
    OwnFilesOnly (e :: tr) := by
  intro before e' after file htr htouch
  cases before with
  | nil =>
      obtain ⟨rfl, -⟩ := List.cons.inj htr
      cases he file htouch
  | cons e₀ before =>
      obtain ⟨path, mode, hopen⟩ := h before e' after file (List.cons.inj htr).2 htouch
      exact ⟨path, mode, List.mem_cons_of_mem _ hopen⟩

theorem OwnFilesOnly.fopen (h : ∀ e ∈ tr, TouchesOnly opened e.1) :
    OwnFilesOnly (⟨.fopen path mode, opened⟩ :: tr) := by
  intro before e after file htr htouch
  cases before with
  | nil =>
      obtain ⟨rfl, -⟩ := List.cons.inj htr
      cases htouch
  | cons e₀ before =>
      obtain ⟨rfl, rfl⟩ := List.cons.inj htr
      obtain rfl : opened = some file := h e (by simp) file htouch
      exact ⟨path, mode, List.mem_cons_self⟩

theorem run_touches {P : Protocol Resp Unit} {prog : Worker Status} {out : Except Fault Status}
    (hrun : P.Run () prog tr () out) (h : prog.Calls (TouchesOnly cacheFile)) :
    ∀ e ∈ tr, TouchesOnly cacheFile e.1 :=
  hrun.calls h

theorem serveGrant_ownFiles {P : Protocol Resp Unit} {out : Except Fault Status}
    (hrun : P.Run () (serveGrant fuel cacheFile job grant serverAddress path hostname) tr () out)
    (h : cacheFile = none ∨ job.clientSocketFd = -1 ∨ grant.action ≠ .unavailable) :
    OwnFilesOnly tr := by
  unfold serveGrant at hrun
  split at hrun
  next hnothing =>
    refine .of_none (run_touches hrun ?_)
    cases grant.record with
    | none => trivial
    | some record => exact ⟨fun _ ↦ False.elim, fun _ ↦ trivial⟩
  next hclient =>
    cases grant with
    | unavailable =>
        obtain rfl : cacheFile = none := by simp_all [Grant.action]
        exact .of_none (run_touches hrun fetch_touches)
    | shouldRead record =>
        simp only [fopen_bind, run_call] at hrun
        obtain ⟨opened, tr', -, rfl, hrun⟩ := hrun
        cases opened with
        | none => exact .fopen (run_touches hrun fetch_touches)
        | some file => exact .fopen (run_touches hrun serveCached_touches)
    | shouldWrite record =>
        simp only [fopen_bind, run_call] at hrun
        obtain ⟨opened, tr', -, rfl, hrun⟩ := hrun
        exact .fopen (run_touches hrun fetch_touches)

/-- Without a grant the file in the variable is closed if the server refuses the connection. -/
theorem serveGrant_strays (hclient : job.clientSocketFd ≠ -1)
    (hgrant : grant.action = .unavailable) :
    (granting granted).Run ()
      (serveGrant fuel (some file) job grant serverAddress path hostname)
      [⟨.socket, (0 : ℤ)⟩, ⟨.connect 0 serverAddress, false⟩, ⟨.fclose file, ()⟩] ()
      (.ok .fail) := by
  cases grant with
  | unavailable record =>
      rw [serveGrant, if_neg fun h ↦ hclient h.1]
      exact .call trivial (.call trivial (.call trivial (.ret _)))
  | shouldRead record => cases hgrant
  | shouldWrite record => cases hgrant

theorem not_ownFilesOnly (before : Trace)
    (hopen : ∀ path mode opened, ⟨.fopen path mode, opened⟩ ∉ before) :
    ¬OwnFilesOnly (before ++ [⟨.fclose file, ()⟩]) := by
  intro h
  obtain ⟨path, mode, hmem⟩ := h before _ [] file rfl rfl
  exact hopen _ _ _ hmem

/-- A request keeps to the files it has opened, whatever the surroundings answer, exactly if the
variable starts as NULL or is set or unused before anything goes through it. -/
theorem ownFiles_iff :
    (∀ tr out, (granting grant).Run ()
        (handleValidRequest fuel cacheFile job serverAddress path hostname) tr () out →
      OwnFilesOnly tr) ↔
      cacheFile = none ∨ job.clientSocketFd = -1 ∨
        63 ∉ path ∧ grant.action ≠ .unavailable := by
  unfold handleValidRequest
  split
  next hquery =>
    constructor
    · intro h
      by_contra! hnot
      obtain ⟨file, rfl⟩ := Option.ne_none_iff_exists'.mp hnot.1
      have hown := h _ _ (serveGrant_strays hnot.2.1 rfl)
      exact not_ownFilesOnly [_, _] (by simp) hown
    · intro h tr out hrun
      apply serveGrant_ownFiles hrun
      rcases h with hnone | hclient | ⟨hquery', -⟩
      · exact .inl hnone
      · exact .inr (.inl hclient)
      · exact absurd hquery hquery'
  next hquery =>
    constructor
    · intro h
      by_contra! hnot
      obtain ⟨file, rfl⟩ := Option.ne_none_iff_exists'.mp hnot.1
      have hown := h _ _ (.call rfl (serveGrant_strays hnot.2.1 (hnot.2.2 hquery)))
      exact not_ownFilesOnly [_, _, _] (by simp) hown
    · intro h tr out hrun
      simp only [cacheRecordGetOrCreate_bind, run_call] at hrun
      obtain ⟨answer, tr', hanswer, rfl, hrun⟩ := hrun
      obtain rfl : answer = grant := hanswer
      refine (serveGrant_ownFiles hrun ?_).cons fun _ ↦ False.elim
      exact h.imp_right (Or.imp_right And.right)

/-- A request that is not looked up closes a file it has never opened. -/
theorem queryRequest_strays :
    ∃ tr, (granting (.unavailable none)).Run ()
        (handleValidRequest 1 (some 5) (jobConstruct 3) ⟨10, 0, 0, 1, 80⟩ (text "/?") (text "a"))
        tr () (.ok .fail) ∧ ¬OwnFilesOnly tr := by
  have hquery : 63 ∈ text "/?" := by decide
  rw [handleValidRequest, if_pos hquery]
  exact ⟨_, serveGrant_strays (by decide) rfl, not_ownFilesOnly [_, _] (by simp)⟩

end HttpProxy
