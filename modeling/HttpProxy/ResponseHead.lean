import HttpProxy.Relay

/-!
# The head of a response

What a client that is there and takes all bytes is sent.  A request is refused with a line
of the proxy's own, and the empty line that ends the head is only written with a keep-alive
header; a request that is let through is answered with the cached file, or with what the
server's stream brings up to the declared length.
-/

namespace HttpProxy

open CString Interaction Protocol

variable {fuel : ℕ} {locals : Locals} {table : BlockTable} {job left : Job} {fd : ℤ} {tr : Trace}
  {hostname path : List UInt8} {deadline : ℕ}

/-- A head: a status line and header lines, each ended by CRLF, none of the others another
status line, and an empty line. -/
def CompleteHead (bytes : List UInt8) : Prop :=
  ∃ (status : List UInt8) (headers : List (List UInt8)) (rest : List UInt8),
    bytes = status ++ crlf ++ headers.flatMap (· ++ crlf) ++ crlf ++ rest ∧
      text "HTTP/" <+: status ∧ lf ∉ status ∧
        ∀ header ∈ headers, header ≠ [] ∧ lf ∉ header ∧ ¬text "HTTP/" <+: header

/-! ## The surroundings -/

/-- What a call of `process_job` meets: what the client has sent, the answers of the
resolver, the cache and `fopen`, the content of a cached file, whether a server can be
connected, how many bytes of a request it takes before it is gone, and what the calls of
`recv` bring of its stream before it is closed. -/
structure Surroundings where
  request : List UInt8
  resolved : Option { addresses : List Address // addresses ≠ [] }
  grant : Grant
  opened : Option FileHandle
  cached : List UInt8
  connects : Bool
  takes : ℕ
  stream : List (RecvResult jobRequestBufferSize)

variable {u : Surroundings}

/-- What the client was sent and the server has taken, and how much of the stream and of the
cached file has been used, until that file is scanned for links. -/
structure HeadState where
  received : Bool
  sent : List UInt8
  toServer : ℕ
  stream : List (RecvResult jobRequestBufferSize)
  position : ℕ
  scanning : Bool

def HeadState.start (u : Surroundings) : HeadState := ⟨false, [], 0, u.stream, 0, false⟩

/-- A stream that is used up is closed. -/
def nextChunk (stream : List (RecvResult jobRequestBufferSize)) :
    RecvResult jobRequestBufferSize :=
  stream.headD (.data [] (Nat.zero_le _))

/-- The client is there and takes what it is sent, and its deadline is not over when its
request is read. -/
def HeadAnswers (u : Surroundings) (deadline : ℕ) (s : HeadState) : (op : Op) → Resp op → Prop
  | .time, now => s.received = false → unsignedTime now ≤ deadline
  | .recv (.client _) size _, received =>
      received.bytes = u.request.take size ∧ received.length = (u.request.take size).length
  | .recv (.server _) size _, received => size = jobRequestBufferSize →
      received.bytes = (nextChunk s.stream).bytes ∧ received.length = (nextChunk s.stream).length
  | .peek (.client _), received => received.length ≠ 0
  | .peek (.server _), received => received.length = 0 → u.takes ≤ s.toServer
  | .send (.client _) bytes, sent => bytes ≠ [] → sent ≠ none
  | .send (.server _) bytes, none => bytes ≠ [] → u.takes ≤ s.toServer
  | .send (.server _) _, some n => s.toServer + n.val ≤ u.takes
  | .socket, fd => u.connects = true → fd ≠ -1
  | .connect fd _, connected => connected = true ↔ u.connects = true ∧ fd ≠ -1
  | .getaddrinfo _ _, answer => answer = u.resolved
  | .cacheRecordGetOrCreate _, answer => answer = u.grant
  | .fopen _ _, answer => answer = u.opened
  | .fread _ size, bytes =>
      s.scanning = false → bytes.val = (u.cached.drop s.position).take size
  | _, _ => True

def HeadState.next (s : HeadState) : (op : Op) → Resp op → HeadState
  | .recv (.client _) _ _, _ => { s with received := true }
  | .recv (.server _) _ _, _ => { s with stream := s.stream.tail }
  | .send (.client _) bytes, some n => { s with sent := s.sent ++ bytes.take n.val }
  | .send (.server _) _, some n => { s with toServer := s.toServer + n.val }
  | .fread _ _, bytes => { s with position := s.position + bytes.val.length }
  | .fseek _ _ _, _ => { s with scanning := true }
  | _, _ => s

def clientConnected (u : Surroundings) (deadline : ℕ) : Protocol Resp HeadState where
  requires _ _ := True
  answers := HeadAnswers u deadline
  next := HeadState.next

theorem clientConnected_total (u : Surroundings) (deadline : ℕ) (s : HeadState) (op : Op) :
    ∃ r, (clientConnected u deadline).answers s op r := by
  cases op with
  | time => exact ⟨(0 : ℕ), fun _ ↦ Nat.zero_le _⟩
  | recv socket size dontWait =>
      cases socket with
      | client fd => exact ⟨.data (u.request.take size) (List.length_take_le _ _), rfl, rfl⟩
      | server fd =>
          by_cases hsize : size = jobRequestBufferSize
          · subst hsize
            exact ⟨nextChunk s.stream, fun _ ↦ ⟨rfl, rfl⟩⟩
          · exact ⟨.error, fun h ↦ absurd h hsize⟩
  | peek socket =>
      have halive : (RecvResult.error : RecvResult 999).length ≠ 0 := by decide
      cases socket with
      | client fd => exact ⟨.error, halive⟩
      | server fd => exact ⟨.error, fun h ↦ absurd h halive⟩
  | send socket bytes =>
      by_cases hbytes : bytes = []
      · cases socket <;> exact ⟨none, fun h ↦ absurd hbytes h⟩
      · have hpos : 0 < bytes.length := List.length_pos_iff.mpr hbytes
        cases socket with
        | client fd => exact ⟨some ⟨1, by omega, by omega⟩, fun _ ↦ by simp⟩
        | server fd =>
            by_cases hmore : s.toServer < u.takes
            · exact ⟨some ⟨1, by omega, by omega⟩, hmore⟩
            · exact ⟨none, fun _ ↦ by omega⟩
  | socket => exact ⟨(0 : ℤ), fun _ ↦ by decide⟩
  | connect fd address => exact ⟨decide (u.connects = true ∧ fd ≠ -1), decide_eq_true_iff⟩
  | getaddrinfo name service => exact ⟨u.resolved, rfl⟩
  | fopen path mode => exact ⟨u.opened, rfl⟩
  | fread file size =>
      exact ⟨⟨(u.cached.drop s.position).take size, List.length_take_le _ _⟩, fun _ ↦ rfl⟩
  | cacheRecordGetOrCreate url => exact ⟨u.grant, rfl⟩
  | _ =>
      obtain ⟨r, -⟩ := anything_total () _
      exact ⟨r, trivial⟩

/-! ## What is relayed -/

/-- What the loop takes off a stream, with `contentRead` bytes of the content read before. -/
def relayedRest (contentLength : ℤ) :
    ℤ → List (RecvResult jobRequestBufferSize) → List UInt8
  | _, [] => []
  | contentRead, chunk :: stream =>
      if contentLength > contentRead then
        chunk.bytes ++ relayedRest contentLength (contentRead + chunk.length) stream
      else []

/-- What of a stream is sent on: the first chunk, and what follows it until the length that
the first chunk declares has been read. -/
def relayed : List (RecvResult jobRequestBufferSize) → List UInt8
  | [] => []
  | first :: stream =>
      match parseResponseHeader (responseBuffer first.bytes) with
      | .error _ => []
      | .ok lengths =>
          if first.length < lengths.1 + lengths.2 then
            first.bytes ++ relayedRest lengths.2 (first.length - lengths.1) stream
          else first.bytes

/-- The bytes a client is sent whose request is let through: the cached file, or what is
relayed from a server that is connected and takes the whole request. -/
def Surroundings.answer (u : Surroundings) (path hostname : List UInt8) : List UInt8 :=
  match cacheAnswer path u.grant, u.opened with
  | .shouldRead _, some _ => u.cached
  | _, _ =>
      if u.connects = true ∧ (upstreamRequest path hostname).length ≤ u.takes then
        relayed u.stream
      else []

theorem relayedRest_done {contentLength contentRead : ℤ} (h : ¬contentLength > contentRead)
    (stream : List (RecvResult jobRequestBufferSize)) :
    relayedRest contentLength contentRead stream = [] := by
  cases stream with
  | nil => rfl
  | cons chunk stream => exact if_neg h

theorem relayedRest_more {contentLength contentRead : ℤ} (h : contentLength > contentRead)
    (stream : List (RecvResult jobRequestBufferSize)) :
    relayedRest contentLength contentRead stream = (nextChunk stream).bytes ++
      relayedRest contentLength (contentRead + (nextChunk stream).length) stream.tail := by
  cases stream with
  | nil => rfl
  | cons chunk stream => exact if_pos h

theorem relayed_of_parse {stream : List (RecvResult jobRequestBufferSize)} {lengths : ℤ × ℤ}
    (hparse : parseResponseHeader (responseBuffer (nextChunk stream).bytes) = .ok lengths) :
    relayed stream = if (nextChunk stream).length < lengths.1 + lengths.2 then
      (nextChunk stream).bytes ++
        relayedRest lengths.2 ((nextChunk stream).length - lengths.1) stream.tail
      else (nextChunk stream).bytes := by
  cases stream with
  | nil =>
      have hnil : parseResponseHeader (responseBuffer []) = .ok lengths := hparse
      rw [parseResponseHeader_nil] at hnil
      cases hnil
  | cons first stream =>
      have hfirst : parseResponseHeader (responseBuffer first.bytes) = .ok lengths := hparse
      simp only [relayed, hfirst]
      rfl

/-! ## Sending -/

theorem keeps_sendLoop_connected {s : HeadState} (bytes : List UInt8)
    (hfuel : bytes.length ≤ fuel) :
    (clientConnected u deadline).Keeps (sendLoop (.client fd) fuel bytes)
      (fun s' out ↦ out = .ok .success ∧ s' = { s with sent := s.sent ++ bytes }) s := by
  induction fuel generalizing s bytes with
  | zero =>
      obtain rfl : bytes = [] := List.length_eq_zero_iff.mp (by omega)
      exact ⟨rfl, by simp⟩
  | succ fuel ih =>
      cases bytes with
      | nil => exact ⟨rfl, by simp⟩
      | cons c rest =>
          simp only [sendLoop, peek_bind, send_bind, keeps_call]
          refine ⟨trivial, fun alive halive ↦ ?_⟩
          rw [if_neg halive, keeps_call]
          refine ⟨trivial, fun sent hsent ↦ ?_⟩
          cases sent with
          | none => exact absurd rfl (hsent (by simp))
          | some n =>
              have hpos := n.property.1
              refine (ih _ ?_).mono ?_
              · simp only [List.length_drop, List.length_cons] at hfuel ⊢
                omega
              · rintro s' out ⟨rfl, rfl⟩
                exact ⟨rfl, by simp [clientConnected, HeadState.next]⟩

theorem keeps_trySendInChunks_connected {s : HeadState} (hfd : fd ≠ -1) (bytes : List UInt8)
    (length : ℤ) :
    (clientConnected u deadline).Keeps (trySendInChunks (.client fd) bytes length)
      (fun s' out ↦ out = .ok .success ∧
        s' = { s with sent := s.sent ++ bytes.take length.toNat }) s := by
  rw [trySendInChunks, if_neg (show (Socket.client fd).fd ≠ -1 from hfd)]
  exact keeps_sendLoop_connected _ (List.length_take_le _ _)

/-- A chunk reaches the client as it is. -/
theorem sends_cacheAndSend {s : HeadState} (hfd : fd ≠ -1) (cacheFile : Option FileHandle)
    {size : ℕ} (chunk : RecvResult size) :
    (clientConnected u deadline).Triple (· = s)
      (cacheAndSend (.client fd) cacheFile chunk.bytes chunk.length)
      fun result s' ↦ result = .success ∧ s' = { s with sent := s.sent ++ chunk.bytes } := by
  have hall : chunk.bytes.take chunk.length.toNat = chunk.bytes := by
    cases chunk with
    | error => rfl
    | data bytes fits => simp [RecvResult.bytes, RecvResult.length]
  have hsend : (clientConnected u deadline).Triple (· = s)
      (trySendInChunks (.client fd) chunk.bytes chunk.length)
      fun result s' ↦ result = .success ∧ s' = { s with sent := s.sent ++ chunk.bytes } := by
    rintro s rfl
    apply (keeps_trySendInChunks_connected hfd _ _).mono
    rintro s' out ⟨rfl, rfl⟩ result hresult
    cases hresult
    rw [hall]
    exact ⟨rfl, rfl⟩
  cases cacheFile with
  | none => exact hsend
  | some file =>
      simp only [cacheAndSend]
      split
      · exact triple_halt _
      · exact triple_call (fun _ _ ↦ trivial) (fun _ _ hs _ ↦ hs) fun _ ↦ hsend

/-- The request is sent whole if the server takes that many bytes, and else the send
fails. -/
theorem keeps_sendLoop_server {s : HeadState} (bytes : List UInt8) (hfuel : bytes.length ≤ fuel)
    (htaken : s.toServer ≤ u.takes) :
    (clientConnected u deadline).Keeps (sendLoop (.server fd) fuel bytes)
      (fun s' out ↦ s'.sent = s.sent ∧ s'.stream = s.stream ∧
        (out = .ok .success ∧ s.toServer + bytes.length ≤ u.takes ∨
          out = .ok .fail ∧ u.takes < s.toServer + bytes.length)) s := by
  induction fuel generalizing s bytes with
  | zero =>
      obtain rfl : bytes = [] := List.length_eq_zero_iff.mp (by omega)
      exact ⟨rfl, rfl, .inl ⟨rfl, htaken⟩⟩
  | succ fuel ih =>
      cases bytes with
      | nil => exact ⟨rfl, rfl, .inl ⟨rfl, htaken⟩⟩
      | cons c rest =>
          have hpos : 0 < (c :: rest).length := by simp
          simp only [sendLoop, peek_bind, send_bind, keeps_call]
          refine ⟨trivial, fun alive halive ↦ ?_⟩
          split
          next hgone =>
            have hall : u.takes ≤ s.toServer := halive hgone
            exact ⟨rfl, rfl, .inr ⟨rfl, by omega⟩⟩
          next =>
            refine ⟨trivial, fun sent hsent ↦ ?_⟩
            cases sent with
            | none =>
                have hall : u.takes ≤ s.toServer := hsent (by simp)
                exact ⟨rfl, rfl, .inr ⟨rfl, by omega⟩⟩
            | some n =>
                have hn := n.property
                have hmore : s.toServer + n.val ≤ u.takes := hsent
                have hrest : ((c :: rest).drop n.val).length = (c :: rest).length - n.val :=
                  List.length_drop
                have hnext : (clientConnected u deadline).next
                    ((clientConnected u deadline).next s (.peek (.server fd)) alive)
                    (.send (.server fd) (c :: rest)) (some n) =
                      { s with toServer := s.toServer + n.val } := rfl
                rw [hnext]
                refine (ih _ (by omega) hmore).mono ?_
                rintro s' out ⟨hclient, hstream, hout⟩
                refine ⟨hclient, hstream, ?_⟩
                simp only [hrest] at hout
                rcases hout with ⟨rfl, hle⟩ | ⟨rfl, hlt⟩
                · exact .inl ⟨rfl, by omega⟩
                · exact .inr ⟨rfl, by omega⟩

theorem keeps_trySendInChunks_server {s : HeadState} (hfd : fd ≠ -1) (hnone : s.toServer = 0)
    (request : List UInt8) :
    (clientConnected u deadline).Keeps (trySendInChunks (.server fd) request request.length)
      (fun s' out ↦ s'.sent = s.sent ∧ s'.stream = s.stream ∧
        (out = .ok .success ∧ request.length ≤ u.takes ∨
          out = .ok .fail ∧ u.takes < request.length)) s := by
  have hall : request.take (request.length : ℤ).toNat = request := by simp
  rw [trySendInChunks, if_neg (show (Socket.server fd).fd ≠ -1 from hfd), hall]
  apply (keeps_sendLoop_server request (by simp) (by omega)).mono
  intro s' out h
  rwa [hnone, Nat.zero_add] at h

/-! ## What is let through -/

theorem sends_relayLoop {s : HeadState} (hfd : fd ≠ -1) (serverSocketFd : ℤ)
    (cacheFile : Option FileHandle) (contentLength contentRead : ℤ) :
    (clientConnected u deadline).Triple (· = s)
      (relayLoop fuel serverSocketFd (.client fd) cacheFile contentLength contentRead)
      fun _ s' ↦ s'.sent = s.sent ++ relayedRest contentLength contentRead s.stream := by
  induction fuel generalizing s contentRead with
  | zero => exact triple_halt _
  | succ fuel ih =>
      simp only [relayLoop]
      split
      next hmore =>
        rintro s rfl
        simp only [recv_bind, keeps_call]
        refine ⟨trivial, fun received hreceived ↦ ?_⟩
        obtain ⟨hbytes, hlength⟩ := hreceived rfl
        rw [relayedRest_more hmore, ← hbytes, ← hlength]
        split
        · exact triple_halt _ _ rfl
        · refine ((sends_cacheAndSend hfd cacheFile received).bind fun result ↦ ?_) _ rfl
          split
          next hfail => exact fun s' hs ↦ absurd (hs.1.symm.trans hfail) (by decide)
          next =>
            refine (ih _).mono (fun _ hs ↦ hs.2) fun _ s' hs ↦ ?_
            rw [hs, List.append_assoc]
            rfl
      next hdone =>
        refine triple_ret ?_
        rintro s rfl
        rw [relayedRest_done hdone, List.append_nil]

/-- The relay of a response sends what `relayed` says. -/
theorem sends_relayRest {s : HeadState} (hfd : fd ≠ -1) (serverSocketFd : ℤ)
    (cacheFile : Option FileHandle) (lengths : ℤ × ℤ) (bytesRead : ℤ) :
    (clientConnected u deadline).Triple (· = s)
      (relayRest fuel serverSocketFd (.client fd) cacheFile lengths bytesRead)
      fun _ s' ↦ s'.sent = s.sent ++ if bytesRead < lengths.1 + lengths.2 then
        relayedRest lengths.2 (bytesRead - lengths.1) s.stream else [] := by
  unfold relayRest
  split
  · exact triple_halt _
  · split
    · exact sends_relayLoop hfd _ _ _ _
    · exact triple_ret fun s' hs ↦ by rw [hs, List.append_nil]

/-- Calls that send nothing to a client. -/
def SendsNoClient : Op → Prop
  | .send (.client _) _ => False
  | _ => True

theorem SendsNoClient.sent {op : Op} (hop : SendsNoClient op) (s : HeadState) (r : Resp op) :
    (s.next op r).sent = s.sent := by
  cases op with
  | recv socket => cases socket <;> rfl
  | send socket bytes =>
      cases socket with
      | client fd => exact hop.elim
      | server fd => cases r <;> rfl
  | _ => rfl

theorem triple_sendsNoClient {α : Type} {p : Worker α} {sent : List UInt8}
    (hp : p.Calls SendsNoClient) :
    (clientConnected u deadline).Triple (fun s ↦ s.sent = sent) p fun _ s ↦ s.sent = sent :=
  triple_of_calls hp (fun _ _ _ ↦ trivial) fun s _ hop hs r ↦ (hop.sent s r).trans hs

theorem sendsNoClient_of_endsRequest : ∀ op, EndsRequest op → SendsNoClient op := by
  intro op hop
  cases op <;> trivial

theorem closeIfOpen_sendsNoClient (cacheFile : Option FileHandle) :
    (closeIfOpen cacheFile).Calls SendsNoClient := by
  cases cacheFile with
  | none => trivial
  | some file => exact ⟨trivial, fun _ ↦ trivial⟩

theorem sends_relayResponse {s : HeadState} (hfd : job.clientSocketFd ≠ -1) (grant : Grant)
    (cacheFile : Option FileHandle) (serverSocketFd : ℤ) :
    (clientConnected u deadline).Triple (· = s)
      (relayResponse fuel job grant cacheFile serverSocketFd hostname)
      fun _ s' ↦ s'.sent = s.sent ++ relayed s.stream := by
  rintro s rfl
  simp only [relayResponse, recv_bind, keeps_call]
  refine ⟨trivial, fun received hreceived ↦ ?_⟩
  obtain ⟨hbytes, hlength⟩ := hreceived rfl
  cases hparse : parseResponseHeader (responseBuffer received.bytes) with
  | error fault => exact triple_halt _ _ rfl
  | ok lengths =>
      have hfinish : (finishRelay fuel job grant cacheFile hostname).Calls SendsNoClient :=
        (finishRelay_calls cacheFile).mono sendsNoClient_of_endsRequest
      rw [hbytes] at hparse
      rw [relayed_of_parse hparse, ← hbytes, ← hlength]
      refine ((sends_cacheAndSend hfd cacheFile received).bind fun result ↦ ?_) _ rfl
      split
      next hfail => exact fun s' hs ↦ absurd (hs.1.symm.trans hfail) (by decide)
      next =>
        rintro s' ⟨-, rfl⟩
        refine ((sends_relayRest hfd serverSocketFd cacheFile lengths _).bind fun _ ↦
          (triple_sendsNoClient (p := do
            close serverSocketFd
            finishRelay fuel job grant cacheFile hostname) ⟨trivial, fun _ ↦ hfinish⟩)).mono
              (fun _ hs ↦ hs) (fun _ s' hs ↦ ?_) _ rfl
        rw [hs]
        split <;> simp <;> rfl

/-- A server that is asked answers if it is connected and takes the whole request. -/
theorem sends_fetch {s : HeadState} (hfd : job.clientSocketFd ≠ -1) (hnone : s.toServer = 0)
    (grant : Grant) (cacheFile : Option FileHandle) (serverAddress : Address) :
    (clientConnected u deadline).Triple (· = s)
      (fetch fuel job grant cacheFile serverAddress path hostname)
      fun _ s' ↦ s'.sent = s.sent ++
        if u.connects = true ∧ (upstreamRequest path hostname).length ≤ u.takes then
          relayed s.stream else [] := by
  have hclose : (closeIfOpen cacheFile >>=
      fun _ ↦ (.ret Status.fail : Worker Status)).Calls SendsNoClient :=
    (closeIfOpen_sendsNoClient cacheFile).bind fun _ ↦ trivial
  have hfail {s' : HeadState} (hsent : s'.sent = s.sent)
      (hnot : ¬(u.connects = true ∧ (upstreamRequest path hostname).length ≤ u.takes)) :
      (clientConnected u deadline).Keeps
        (closeIfOpen cacheFile >>= fun _ ↦ (.ret Status.fail : Worker Status))
        (fun s' out ↦ ∀ a, out = .ok a → s'.sent = s.sent ++
          if u.connects = true ∧ (upstreamRequest path hostname).length ≤ u.takes then
            relayed s.stream else []) s' := by
    rw [if_neg hnot, List.append_nil]
    exact triple_sendsNoClient hclose _ hsent
  rintro s rfl
  simp only [fetch, newSocket_bind, connect_bind, keeps_call]
  refine ⟨trivial, fun serverSocketFd hsocket ↦ ⟨trivial, fun connected hconnected ↦ ?_⟩⟩
  have hreaches : connected = true ↔ u.connects = true ∧ serverSocketFd ≠ -1 := hconnected
  split
  next hrefused =>
    refine hfail rfl fun h ↦ ?_
    simp [hreaches.mpr ⟨h.1, hsocket h.1⟩] at hrefused
  next hopen =>
    obtain ⟨hconnects, hserver⟩ := hreaches.mp (by simpa using hopen)
    apply (keeps_trySendInChunks_server hserver hnone _).bind
    · rintro s' status ⟨hsent, hstream, hout⟩
      split
      next hfailed =>
        subst hfailed
        have hshort : u.takes < (upstreamRequest path hostname).length := by simpa using hout
        exact hfail hsent fun h ↦ absurd h.2 (by omega)
      next hsucceeded =>
        have hwhole : (upstreamRequest path hostname).length ≤ u.takes := by
          rcases hout with ⟨-, hle⟩ | ⟨hout, -⟩
          · exact hle
          · exact absurd (Except.ok.inj hout) hsucceeded
        rw [if_pos ⟨hconnects, hwhole⟩, ← hsent, ← hstream]
        exact sends_relayResponse hfd grant cacheFile serverSocketFd _ rfl
    · rintro s' fault ⟨-, -, ⟨⟨⟩, -⟩ | ⟨⟨⟩, -⟩⟩

theorem sends_sendCachedLoop {s : HeadState} (hfd : fd ≠ -1) (hscanning : s.scanning = false)
    (cacheFile : FileHandle) :
    (clientConnected u deadline).Triple (· = s) (sendCachedLoop fuel (.client fd) cacheFile)
      fun _ s' ↦ s'.sent = s.sent ++ u.cached.drop s.position := by
  induction fuel generalizing s with
  | zero => exact triple_halt _
  | succ fuel ih =>
      rintro s rfl
      simp only [sendCachedLoop, fread_bind, keeps_call]
      refine ⟨trivial, fun bytes hbytes ↦ ?_⟩
      have hread : bytes.val = (u.cached.drop s.position).take jobRequestBufferSize :=
        hbytes hscanning
      split
      next hempty =>
        have hend : u.cached.drop s.position = [] := by
          rw [hread, List.take_eq_nil_iff] at hempty
          exact hempty.resolve_left (by decide)
        intro result _
        rw [hend, List.append_nil]
        rfl
      next hmore =>
        have hrest : bytes.val ++ u.cached.drop (s.position + bytes.val.length) =
            u.cached.drop s.position := by
          have hdrop : (u.cached.drop s.position).drop bytes.val.length =
              (u.cached.drop s.position).drop jobRequestBufferSize := by
            rw [List.drop_eq_drop_iff, hread, List.length_take]
            omega
          rw [← List.drop_drop, hdrop, hread, List.take_append_drop]
        apply (keeps_trySendInChunks_connected hfd _ _).bind
        · rintro s' status ⟨hstatus, rfl⟩
          obtain rfl : status = .success := by simpa using hstatus
          rw [if_neg (by decide)]
          refine (ih (by exact hscanning)).mono (fun _ hs ↦ hs) (fun _ s' hs ↦ ?_) _ rfl
          rw [hs, ← hrest]
          simp [clientConnected, HeadState.next]
        · rintro s' fault ⟨⟨⟩, -⟩

theorem sends_serveCached {s : HeadState} (hfd : job.clientSocketFd ≠ -1)
    (hscanning : s.scanning = false) (record : RecordRef) (cacheFile : FileHandle) :
    (clientConnected u deadline).Triple (· = s) (serveCached fuel job record cacheFile hostname)
      fun _ s' ↦ s'.sent = s.sent ++ u.cached.drop s.position := by
  have hclose (status : Status) : (do
      fclose cacheFile
      cacheRecordClose record .shouldRead
      .ret status : Worker Status).Calls SendsNoClient :=
    ⟨trivial, fun _ ↦ ⟨trivial, fun _ ↦ trivial⟩⟩
  have hscan : (dispatchPrefetchJobs fuel (some cacheFile) hostname).Calls SendsNoClient :=
    (dispatchPrefetchJobs_calls _ _ _).mono fun op hop ↦ by cases op <;> trivial
  refine (sends_sendCachedLoop hfd hscanning cacheFile).bind fun result ↦ ?_
  split
  · exact triple_sendsNoClient (hclose .fail)
  · exact triple_sendsNoClient (hscan.bind fun _ ↦ hclose .success)

/-- A client whose request is let through is sent the cached file, or what is relayed of the
server's stream, and nothing else. -/
theorem sends_handleValidRequest (hfd : job.clientSocketFd ≠ -1) {s : HeadState}
    (hs : s = { HeadState.start u with received := true }) (cacheFile : Option FileHandle)
    (serverAddress : Address) :
    (clientConnected u deadline).Triple (· = s)
      (handleValidRequest fuel cacheFile job serverAddress path hostname)
      fun _ s' ↦ s'.sent = u.answer path hostname := by
  have hserve : (clientConnected u deadline).Triple (· = s)
      (serveGrant fuel cacheFile job (cacheAnswer path u.grant) serverAddress path hostname)
      fun _ s' ↦ s'.sent = u.answer path hostname := by
    subst hs
    unfold serveGrant Surroundings.answer
    rw [if_neg fun h ↦ hfd h.1]
    cases cacheAnswer path u.grant with
    | unavailable record => exact sends_fetch hfd rfl _ _ _
    | shouldRead record =>
        rintro s rfl
        simp only [fopen_bind, keeps_call]
        refine ⟨trivial, fun opened hopened ↦ ?_⟩
        obtain rfl : opened = u.opened := hopened
        cases u.opened with
        | none => exact sends_fetch hfd rfl _ _ _ _ rfl
        | some file =>
            exact sends_serveCached (s := { HeadState.start u with received := true }) hfd rfl
              record file _ rfl
    | shouldWrite record =>
        rintro s rfl
        simp only [fopen_bind, keeps_call]
        exact ⟨trivial, fun opened _ ↦ sends_fetch hfd rfl _ _ _ _ rfl⟩
  unfold handleValidRequest
  split
  next hquery => rwa [cacheAnswer, if_pos hquery] at hserve
  next hquery =>
    rw [cacheAnswer, if_neg hquery] at hserve
    rintro s rfl
    simp only [cacheRecordGetOrCreate_bind, keeps_call]
    refine ⟨trivial, fun grant hgrant ↦ ?_⟩
    obtain rfl : grant = u.grant := hgrant
    exact hserve _ rfl

end HttpProxy
