import HttpProxy.FileLoops

/-!
# When the relay ends

The relay loop counts what it has read against the declared length and takes nothing else
as an end.  So it ends exactly if the stream is long enough, and a stream that stops
earlier keeps it receiving.
-/

namespace HttpProxy

open CString Interaction Protocol

variable {grant : Grant} {opened : Option FileHandle} {kind : Bool} {s : RelayState}
  {fuel : ℕ} {job : Job} {hostname path : List UInt8} {serverAddress : Address}
  {cacheFile : Option FileHandle}

/-- The request returns, or its relay is over and the search for links has left its
buffer. -/
def ReturnsFromRelay (out : Except Fault Status) : Prop :=
  (∃ status, out = .ok status) ∨ out = .error .outOfBounds

/-! ## A relay that ends -/

theorem length_write_le (file : OpenFile) (bytes : List UInt8) :
    (file.write bytes).content.length ≤ file.content.length + bytes.length := by
  simp only [OpenFile.write, List.length_append, List.length_take, List.length_drop]
  omega

theorem keeps_cacheAndSend_ends {socket : Socket} (cacheFile : Option FileHandle)
    (bytes : List UInt8) :
    (relaying grant opened kind).Keeps (cacheAndSend socket cacheFile bytes bytes.length)
      (fun s' out ↦ (∃ status, out = .ok status) ∧ s'.pieces = s.pieces ∧
        s'.file.content.length ≤ s.file.content.length + bytes.length) s := by
  cases cacheFile with
  | none =>
      apply (keeps_trySendInChunks_ends bytes bytes.length).mono
      rintro s' out ⟨hout, hs'⟩
      rw [hs']
      exact ⟨hout, rfl, Nat.le_add_right _ _⟩
  | some file =>
      simp only [cacheAndSend, fwrite_bind]
      rw [if_neg (by omega), keeps_call]
      refine ⟨trivial, fun _ _ ↦ (keeps_trySendInChunks_ends bytes bytes.length).mono ?_⟩
      rintro s' out ⟨hout, hs'⟩
      rw [hs']
      refine ⟨hout, rfl, (length_write_le _ _).trans ?_⟩
      simp

theorem received_piece {serverSocketFd : ℤ} {received : RecvResult jobRequestBufferSize}
    {piece : List UInt8} {pieces : List (List UInt8)} (hs : s.pieces = piece :: pieces)
    (h : (relaying grant opened kind).answers s
      (.recv (.server serverSocketFd) jobRequestBufferSize false) received)
    (hlength : piece.length ≤ jobRequestBufferSize) :
    received.bytes = piece ∧ received.length = piece.length := by
  simp only [relaying, RelayAnswers, hs] at h
  rwa [List.take_of_length_le hlength] at h

theorem keeps_relayLoop_ends {serverSocketFd : ℤ} {socket : Socket}
    {contentLength contentRead : ℤ} (hend : LoopEnds contentLength contentRead s.pieces)
    (hfuel : s.pieces.length < fuel)
    (hpieces : ∀ piece ∈ s.pieces, piece.length ≤ jobRequestBufferSize) :
    (relaying grant opened kind).Keeps
      (relayLoop fuel serverSocketFd socket cacheFile contentLength contentRead)
      (fun s' out ↦ out = .ok () ∧
        s'.file.content.length ≤ s.file.content.length + s.pieces.flatten.length) s := by
  induction fuel generalizing s contentRead with
  | zero => omega
  | succ fuel ih =>
      simp only [relayLoop, recv_bind]
      split
      next hmore =>
        cases hs : s.pieces with
        | nil =>
            rw [hs] at hend
            exact absurd hend (by simp only [LoopEnds]; omega)
        | cons piece pieces =>
            rw [hs] at hend hfuel hpieces
            obtain ⟨hrange, hend⟩ := hend.resolve_left (by omega)
            rw [keeps_call]
            refine ⟨trivial, fun received hreceived ↦ ?_⟩
            obtain ⟨hbytes, hlength⟩ := received_piece hs hreceived (hpieces piece (by simp))
            rw [hbytes, hlength, if_neg (not_not.mpr hrange)]
            apply (keeps_cacheAndSend_ends cacheFile piece).bind
            · rintro s₁ status ⟨-, htail, hcontent⟩
              have htail : s₁.pieces = pieces := htail.trans (congrArg List.tail hs)
              have hcontent : s₁.file.content.length ≤ s.file.content.length + piece.length :=
                hcontent
              simp only [List.flatten_cons, List.length_append, List.length_cons] at hfuel ⊢
              split
              · exact ⟨rfl, by omega⟩
              · refine (ih (s := s₁) (htail ▸ hend) (by rw [htail]; omega) ?_).mono ?_
                · intro piece hpiece
                  rw [htail] at hpiece
                  exact hpieces piece (List.mem_cons_of_mem _ hpiece)
                · rintro s₂ out ⟨rfl, hsize⟩
                  rw [htail] at hsize
                  exact ⟨rfl, by omega⟩
            · rintro s₁ fault ⟨⟨status, hstatus⟩, -⟩
              simp at hstatus
      next => exact ⟨rfl, Nat.le_add_right _ _⟩

theorem keeps_finishRelay_ends {grant' : Grant}
    (hwrite : grant'.action = .shouldWrite → cacheFile ≠ none)
    (hfuel : s.file.content.length + 1 < fuel) :
    (relaying grant opened kind).Keeps (finishRelay fuel job grant' cacheFile hostname)
      (fun _ out ↦ ReturnsFromRelay out) s := by
  cases grant' with
  | unavailable record => exact .inl ⟨_, rfl⟩
  | shouldRead record => exact .inl ⟨_, rfl⟩
  | shouldWrite record =>
      obtain ⟨file, rfl⟩ := Option.ne_none_iff_exists'.mp (hwrite rfl)
      have hscan : (relaying grant opened kind).Keeps
          (dispatchForClient fuel job (some file) hostname)
          (fun _ out ↦ out = .ok () ∨ out = .error .outOfBounds) s := by
        unfold dispatchForClient
        split
        · exact (keeps_dispatchPrefetchJobs_ends hfuel).mono fun _ _ h ↦ h.2
        · exact .inl rfl
      have hfinish : (relaying grant opened kind).Keeps
          (finishWrite fuel job record (some file) hostname)
          (fun _ out ↦ out = .ok () ∨ out = .error .outOfBounds) s := by
        refine hscan.bind (fun s₁ _ _ ↦ ?_) fun s₁ fault h ↦ .inr (by simpa using h)
        exact ⟨trivial, fun _ _ ↦ ⟨trivial, fun _ _ ↦ .inl rfl⟩⟩
      exact hfinish.bind (fun s₁ _ _ ↦ .inl ⟨_, rfl⟩) fun s₁ fault h ↦ .inr (by simpa using h)

/-- An iteration bound that every loop of a request stays below. -/
def RelayState.bound (s : RelayState) : ℕ :=
  s.file.content.length + s.pieces.flatten.length + s.pieces.length + 2

theorem keeps_relayRest_ends {serverSocketFd : ℤ} {socket : Socket} {lengths : ℤ × ℤ}
    {bytesRead : ℤ} (hrange : InIntRange (lengths.1 + lengths.2))
    (hloop : bytesRead < lengths.1 + lengths.2 →
      LoopEnds lengths.2 (bytesRead - lengths.1) s.pieces)
    (hfuel : s.pieces.length < fuel)
    (hpieces : ∀ piece ∈ s.pieces, piece.length ≤ jobRequestBufferSize) :
    (relaying grant opened kind).Keeps
      (relayRest fuel serverSocketFd socket cacheFile lengths bytesRead)
      (fun s' out ↦ out = .ok () ∧
        s'.file.content.length ≤ s.file.content.length + s.pieces.flatten.length) s := by
  unfold relayRest
  rw [if_neg (not_not.mpr hrange)]
  split
  next hmore => exact keeps_relayLoop_ends (hloop hmore) hfuel hpieces
  next => exact ⟨rfl, Nat.le_add_right _ _⟩

theorem keeps_relayResponse_ends {grant' : Grant} {serverSocketFd : ℤ}
    (hends : RelayEnds s.pieces) (hwrite : grant'.action = .shouldWrite → cacheFile ≠ none)
    (hfuel : s.bound ≤ fuel)
    (hpieces : ∀ piece ∈ s.pieces, piece.length ≤ jobRequestBufferSize) :
    (relaying grant opened kind).Keeps
      (relayResponse fuel job grant' cacheFile serverSocketFd hostname)
      (fun _ out ↦ ReturnsFromRelay out) s := by
  obtain ⟨first, rest, lengths, hs, hparse, hrange, hloop⟩ := hends
  unfold RelayState.bound at hfuel
  rw [hs] at hpieces hfuel
  simp only [List.flatten_cons, List.length_append, List.length_cons] at hfuel
  simp only [relayResponse, recv_bind, keeps_call]
  refine ⟨trivial, fun received hreceived ↦ ?_⟩
  obtain ⟨hbytes, hlength⟩ := received_piece hs hreceived (hpieces first (by simp))
  rw [hbytes, hlength, hparse]
  simp only [Prog.lift_ok, Prog.ret_bind]
  apply (keeps_cacheAndSend_ends cacheFile first).bind
  · rintro s₁ status ⟨-, htail, hcontent⟩
    have htail : s₁.pieces = rest := htail.trans (congrArg List.tail hs)
    have hcontent : s₁.file.content.length ≤ s.file.content.length + first.length := hcontent
    split
    · exact .inl ⟨_, rfl⟩
    · refine (keeps_relayRest_ends hrange (by rwa [htail]) (by rw [htail]; omega) ?_).bind ?_ ?_
      · intro piece hpiece
        rw [htail] at hpiece
        exact hpieces piece (List.mem_cons_of_mem _ hpiece)
      · rintro s₂ _ ⟨-, hsize⟩
        rw [htail] at hsize
        simp only [close_bind, keeps_call]
        refine ⟨trivial, fun answer _ ↦ ?_⟩
        refine keeps_finishRelay_ends (s := RelayState.next s₂ (.close serverSocketFd) answer)
          hwrite ?_
        simp only [RelayState.next]
        omega
      · rintro s₂ fault ⟨hout, -⟩
        simp at hout
  · rintro s₁ fault ⟨⟨status, hstatus⟩, -⟩
    simp at hstatus

theorem keeps_closeIfOpen_ends :
    (relaying grant opened kind).Keeps (closeIfOpen cacheFile >>= fun _ ↦ .ret Status.fail)
      (fun _ out ↦ ReturnsFromRelay out) s := by
  cases cacheFile with
  | none => exact .inl ⟨_, rfl⟩
  | some file => exact ⟨trivial, fun _ _ ↦ .inl ⟨_, rfl⟩⟩

theorem keeps_fetch_ends {grant' : Grant} (hends : RelayEnds s.pieces)
    (hwrite : grant'.action = .shouldWrite → cacheFile ≠ none) (hfuel : s.bound ≤ fuel)
    (hpieces : ∀ piece ∈ s.pieces, piece.length ≤ jobRequestBufferSize) :
    (relaying grant opened kind).Keeps
      (fetch fuel job grant' cacheFile serverAddress path hostname)
      (fun _ out ↦ ReturnsFromRelay out) s := by
  simp only [fetch, newSocket_bind, connect_bind, keeps_call]
  refine ⟨trivial, fun serverSocketFd _ ↦ ⟨trivial, fun connected _ ↦ ?_⟩⟩
  split
  · exact keeps_closeIfOpen_ends
  · apply (keeps_trySendInChunks_ends _ _).bind
    · rintro s₁ status ⟨-, hs₁⟩
      rw [hs₁]
      split
      · exact keeps_closeIfOpen_ends
      · exact keeps_relayResponse_ends (s := { s with toClient := s₁.toClient }) hends hwrite hfuel
          hpieces
    · rintro s₁ fault ⟨⟨status, hstatus⟩, -⟩
      simp at hstatus

theorem keeps_serveCached_ends {record : RecordRef} {file : FileHandle}
    (hfuel : s.bound ≤ fuel) :
    (relaying grant opened kind).Keeps (serveCached fuel job record file hostname)
      (fun _ out ↦ ReturnsFromRelay out) s := by
  unfold RelayState.bound at hfuel
  unfold serveCached
  refine (keeps_sendCachedLoop_ends ?_).bind ?_ ?_
  · simp only [OpenFile.left]
    omega
  · rintro s₁ status ⟨-, hcontent⟩
    split
    · exact ⟨trivial, fun _ _ ↦ ⟨trivial, fun _ _ ↦ .inl ⟨_, rfl⟩⟩⟩
    · apply (keeps_dispatchPrefetchJobs_ends (by rw [hcontent]; omega)).bind
      · intro s₂ _ _
        exact ⟨trivial, fun _ _ ↦ ⟨trivial, fun _ _ ↦ .inl ⟨_, rfl⟩⟩⟩
      · rintro s₂ fault ⟨-, hout⟩
        exact .inr (by simpa using hout)
  · rintro s₁ fault ⟨⟨status, hstatus⟩, -⟩
    simp at hstatus

/-! ## The request -/

/-- The pointers a request uses without a check: the record it closes when there is
nothing to prefetch, and the file of a writer. -/
structure GrantUsable (job : Job) (grant : Grant) (opened : Option FileHandle) : Prop where
  record : job.clientSocketFd = -1 → grant.action ≠ .shouldWrite → grant.record ≠ none
  file : grant.action = .shouldWrite → opened ≠ none

theorem keeps_serveGrant_ends {pieces : List (List UInt8)} {initial : OpenFile} {grant' : Grant}
    (husable : GrantUsable job grant' opened)
    (hends : Fetches job grant' opened → RelayEnds pieces)
    (hfuel : (RelayState.start pieces initial).bound ≤ fuel)
    (hpieces : ∀ piece ∈ pieces, piece.length ≤ jobRequestBufferSize) :
    (relaying grant opened kind).Keeps
      (serveGrant fuel cacheFile job grant' serverAddress path hostname)
      (fun _ out ↦ ReturnsFromRelay out) (.start pieces initial) := by
  unfold serveGrant
  split
  next hprefetch =>
    obtain ⟨record, hrecord⟩ :=
      Option.ne_none_iff_exists'.mp (husable.record hprefetch.1 hprefetch.2)
    rw [hrecord]
    exact ⟨trivial, fun _ _ ↦ .inl ⟨_, rfl⟩⟩
  next hprefetch =>
    have hfd : job.clientSocketFd = -1 → grant'.action = .shouldWrite := by
      intro hfd
      by_contra haction
      exact hprefetch ⟨hfd, haction⟩
    cases grant' with
    | unavailable record =>
        exact keeps_fetch_ends (hends ⟨hfd, by simp [Grant.action]⟩) (by simp [Grant.action])
          hfuel hpieces
    | shouldRead record =>
        simp only [fopen_bind, keeps_call]
        refine ⟨trivial, fun answer hanswer ↦ ?_⟩
        obtain rfl : answer = opened := hanswer
        cases answer with
        | none =>
            exact keeps_fetch_ends
              (s := RelayState.next (.start pieces initial)
                (.fopen (cacheFilePath record) .read) none)
              (hends ⟨hfd, fun _ ↦ rfl⟩) (by simp [Grant.action]) hfuel hpieces
        | some file => exact keeps_serveCached_ends hfuel
    | shouldWrite record =>
        simp only [fopen_bind, keeps_call]
        refine ⟨trivial, fun answer hanswer ↦ ?_⟩
        obtain rfl : answer = opened := hanswer
        refine keeps_fetch_ends
          (s := RelayState.next (.start pieces initial)
            (.fopen (cacheFilePath record) .write) answer)
          (hends ⟨hfd, by simp [Grant.action]⟩) husable.file ?_ hpieces
        simp only [RelayState.bound, RelayState.start, RelayState.next,
          List.length_nil] at hfuel ⊢
        omega

/-- With iterations enough for its loops every run of the request comes to its end,
whatever the client does, and whether the stream ends with a close or with an error. -/
def RelayReturns (grant : Grant) (opened cacheFile : Option FileHandle) (job : Job)
    (serverAddress : Address) (path hostname : List UInt8) (pieces : List (List UInt8))
    (initial : OpenFile) : Prop :=
  ∃ bound, ∀ fuel ≥ bound, ∀ (tr : Trace) (s' : RelayState) (out : Except Fault Status),
    (relaying grant opened false).Run (.start pieces initial)
      (handleValidRequest fuel cacheFile job serverAddress path hostname) tr s' out →
    ReturnsFromRelay out

theorem RelayReturns.exists_run {pieces : List (List UInt8)} {initial : OpenFile}
    (h : RelayReturns grant opened cacheFile job serverAddress path hostname pieces initial)
    (least : ℕ) :
    ∃ fuel > least, ∃ tr s' out, (relaying grant opened true).Run (.start pieces initial)
      (handleValidRequest fuel cacheFile job serverAddress path hostname) tr s' out ∧
      ReturnsFromRelay out := by
  obtain ⟨bound, hbound⟩ := h
  obtain ⟨tr, s', out, hrun⟩ := Protocol.exists_run (relaying_total true)
    (handleValidRequest (bound + least + 1) cacheFile job serverAddress path hostname)
    (.start pieces initial : RelayState)
  refine ⟨bound + least + 1, by omega, tr, s', out, hrun,
    hbound _ (by omega) tr s' out (hrun.weaken ?_ rfl)⟩
  intro s op r hr
  cases op with
  | recv socket size dontWait =>
      cases socket with
      | client fd => exact hr
      | server fd =>
          simp only [relaying, RelayAnswers] at hr ⊢
          cases hs : s.pieces with
          | nil =>
              rw [hs] at hr
              exact ⟨hr.1, by simp⟩
          | cons piece pieces =>
              rw [hs] at hr
              exact hr
  | peek socket => exact fun h ↦ absurd h (by decide)
  | send socket bytes => exact fun h ↦ absurd h (by decide)
  | connect fd address => exact fun h ↦ absurd h (by decide)
  | _ => exact hr

theorem RelayFault.not_returns {fault : Fault} (h : RelayFault fault) :
    ¬ReturnsFromRelay (.error fault) := by
  rcases h with rfl | rfl | rfl <;> simp [ReturnsFromRelay]

/-- A fetch that returns has had a long enough stream, and a writer its file. -/
theorem RelayReturns.fetch {pieces : List (List UInt8)} {initial : OpenFile}
    (h : RelayReturns grant opened cacheFile job serverAddress path hostname pieces initial)
    (hfetch : Fetches job (cacheAnswer path grant) opened)
    (hpieces : ∀ piece ∈ pieces, piece.length ≤ jobRequestBufferSize) :
    RelayEnds pieces ∧ ((cacheAnswer path grant).action = .shouldWrite → opened ≠ none) := by
  obtain ⟨fuel, hfuel, tr, s', out, hrun, hout⟩ := h.exists_run pieces.length
  rcases (hrun.keeps (keeps_handleValidRequest_kind cacheFile hfetch hfuel hpieces)).ends with
    ⟨hends, hnull⟩ | ⟨fault, hfault, rfl⟩
  · refine ⟨hends, fun hwrite hopened ↦ ?_⟩
    have hfile : relayFile (cacheAnswer path grant) opened cacheFile = none := by
      cases hgrant : cacheAnswer path grant with
      | shouldWrite record => exact hopened
      | _ => simp [hgrant, Grant.action] at hwrite
    rw [hnull hwrite hfile] at hout
    simp [ReturnsFromRelay] at hout
  · exact absurd hout hfault.not_returns

theorem RelayReturns.record {pieces : List (List UInt8)} {initial : OpenFile}
    (h : RelayReturns grant opened cacheFile job serverAddress path hostname pieces initial)
    (hfd : job.clientSocketFd = -1) (haction : (cacheAnswer path grant).action ≠ .shouldWrite) :
    (cacheAnswer path grant).record ≠ none := by
  intro hnone
  obtain ⟨fuel, -, tr, s', out, hrun, hout⟩ := h.exists_run 0
  have hserve : (relaying grant opened true).Keeps
      (serveGrant fuel cacheFile job (cacheAnswer path grant) serverAddress path hostname)
      (fun _ out ↦ out = .error .nullRecord) (.start pieces initial) := by
    unfold serveGrant
    rw [if_pos ⟨hfd, haction⟩, hnone]
    rfl
  rw [hrun.keeps (keeps_handleValidRequest_of_serveGrant hserve)] at hout
  simp [ReturnsFromRelay] at hout

/-! ## Streams that are long enough -/

theorem loopEnds_iff {contentLength contentRead : ℤ} {pieces : List (List UInt8)} :
    LoopEnds contentLength contentRead pieces ↔
      contentLength ≤ contentRead + pieces.flatten.length ∧
        ∀ n < pieces.length, contentRead + (pieces.take n).flatten.length < contentLength →
          InIntRange (contentRead + (pieces.take (n + 1)).flatten.length) := by
  induction pieces generalizing contentRead with
  | nil => simp [LoopEnds]
  | cons piece pieces ih =>
      simp only [LoopEnds, ih, List.flatten_cons, List.length_append, List.length_cons,
        List.take_succ_cons, Int.natCast_add, ← Int.add_assoc]
      constructor
      · rintro (hle | ⟨hrange, hlength, hcounts⟩)
        · refine ⟨by omega, fun n _ hlt ↦ ?_⟩
          omega
        · refine ⟨hlength, fun n hn hlt ↦ ?_⟩
          cases n with
          | zero => simpa using hrange
          | succ n => exact hcounts n (by omega) (by simpa [Int.add_assoc] using hlt)
      · rintro ⟨hlength, hcounts⟩
        by_cases hle : contentLength ≤ contentRead
        · exact .inl hle
        · refine .inr ⟨by simpa using hcounts 0 (by omega) (by simpa using hle), hlength, ?_⟩
          intro n hn hlt
          exact hcounts (n + 1) (by omega) (by simpa [Int.add_assoc] using hlt)

/-- The first piece shows where the header ends, its content length and its sum with the
header length fit into an `int`, the stream is as long as the two together, and the
counter of the content stays an `int` up to there. -/
def StreamReaches (pieces : List (List UInt8)) : Prop :=
  ∃ first rest, ∃ header : ℤ, pieces = first :: rest ∧ headerLength (cstr first 0) = .ok header ∧
    InIntRange (declaredLength (cstr first 0)) ∧
    InIntRange (header + declaredLength (cstr first 0)) ∧
    header + declaredLength (cstr first 0) ≤ pieces.flatten.length ∧
    ∀ n < rest.length,
      (first.length : ℤ) + (rest.take n).flatten.length < header + declaredLength (cstr first 0) →
        InIntRange (first.length + (rest.take (n + 1)).flatten.length - header)

theorem relayEnds_iff {pieces : List (List UInt8)} : RelayEnds pieces ↔ StreamReaches pieces := by
  constructor
  · rintro ⟨first, rest, ⟨header, content⟩, rfl, hparse, hrange, hloop⟩
    obtain ⟨hheader, hin, rfl⟩ := parseResponseHeader_responseBuffer_iff.mp hparse
    refine ⟨first, rest, header, rfl, hheader, hin, hrange, ?_, fun n hn hlt ↦ ?_⟩
    · simp only [List.flatten_cons, List.length_append]
      by_cases hmore : (first.length : ℤ) < header + declaredLength (cstr first 0)
      · have := (loopEnds_iff.mp (hloop hmore)).1
        omega
      · omega
    · have := (loopEnds_iff.mp (hloop (by omega))).2 n hn (by omega)
      convert this using 1
      omega
  · rintro ⟨first, rest, header, rfl, hheader, hin, hrange, hlength, hcounts⟩
    refine ⟨first, rest, (header, declaredLength (cstr first 0)), rfl,
      parseResponseHeader_responseBuffer_iff.mpr ⟨hheader, hin, rfl⟩, hrange, fun _ ↦ ?_⟩
    simp only [List.flatten_cons, List.length_append] at hlength
    refine loopEnds_iff.mpr ⟨by simp only; omega, fun n hn hlt ↦ ?_⟩
    simp only at hlt ⊢
    convert hcounts n hn (by omega) using 1
    omega

/-- A request returns if and only if it uses no NULL pointer and, when it fetches, the
stream reaches the declared length. -/
theorem relayReturns_iff {grant : Grant} {opened cacheFile : Option FileHandle} {job : Job}
    {serverAddress : Address} {path hostname : List UInt8} {pieces : List (List UInt8)}
    {initial : OpenFile} (hpieces : ∀ piece ∈ pieces, piece.length ≤ jobRequestBufferSize) :
    RelayReturns grant opened cacheFile job serverAddress path hostname pieces initial ↔
      GrantUsable job (cacheAnswer path grant) opened ∧
        (Fetches job (cacheAnswer path grant) opened → StreamReaches pieces) := by
  constructor
  · intro h
    refine ⟨⟨h.record, fun hwrite ↦ ?_⟩, fun hfetch ↦ relayEnds_iff.mp (h.fetch hfetch hpieces).1⟩
    exact (h.fetch ⟨fun _ ↦ hwrite, fun hread ↦ by simp [hwrite] at hread⟩ hpieces).2 hwrite
  · rintro ⟨husable, hreaches⟩
    refine ⟨(RelayState.start pieces initial).bound, fun fuel hfuel tr s' out hrun ↦ ?_⟩
    exact hrun.keeps (keeps_handleValidRequest_of_serveGrant (keeps_serveGrant_ends husable
      (fun hfetch ↦ relayEnds_iff.mpr (hreaches hfetch)) hfuel hpieces))

/-- A response that is cut off after two of its five bytes. -/
def shortResponse : List UInt8 := text "HTTP/1.1 200 OK\r\nContent-Length: 5\r\n\r\nab"

theorem relayReturns_iff_shortResponse :
    RelayReturns (.unavailable none) none none (jobConstruct 3) ⟨10, 0, 0, 1, 80⟩ (text "/")
        (text "a") [shortResponse] ⟨[], 0⟩ ↔
      GrantUsable (jobConstruct 3) (cacheAnswer (text "/") (.unavailable none)) none ∧
        (Fetches (jobConstruct 3) (cacheAnswer (text "/") (.unavailable none)) none →
          StreamReaches [shortResponse]) :=
  relayReturns_iff (by decide)

theorem not_streamReaches_shortResponse : ¬StreamReaches [shortResponse] := by
  rintro ⟨first, rest, header, hpieces, hheader, -, -, hlength, -⟩
  cases hpieces
  have hheader' : headerLength (cstr shortResponse 0) = .ok 38 := by rfl
  have hcontent : declaredLength (cstr shortResponse 0) = 5 := by rfl
  have hsize : [shortResponse].flatten.length = 40 := by rfl
  rw [hheader', Except.ok.injEq] at hheader
  rw [hcontent, hsize] at hlength
  omega

/-- A server that closes too early keeps a worker busy for ever. -/
theorem not_relay_always_returns :
    ¬∀ (grant : Grant) (opened cacheFile : Option FileHandle) (job : Job) (serverAddress : Address)
      (path hostname : List UInt8) (pieces : List (List UInt8)) (initial : OpenFile),
      (∀ piece ∈ pieces, piece ≠ [] ∧ piece.length ≤ jobRequestBufferSize) →
        RelayReturns grant opened cacheFile job serverAddress path hostname pieces initial := by
  intro h
  have hreturns := h (.unavailable none) none none (jobConstruct 3) ⟨10, 0, 0, 1, 80⟩ (text "/")
    (text "a") [shortResponse] ⟨[], 0⟩ (by decide)
  have hfetch : Fetches (jobConstruct 3) (cacheAnswer (text "/") (.unavailable none)) none :=
    ⟨by decide, fun _ ↦ rfl⟩
  exact not_streamReaches_shortResponse
    (relayEnds_iff.mp (hreturns.fetch hfetch (by decide)).1)

end HttpProxy
