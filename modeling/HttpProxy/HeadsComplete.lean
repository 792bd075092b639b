import HttpProxy.PrefetchCalls
import HttpProxy.RequestBuffer
import HttpProxy.ResponseHead

/-!
# When the head of a response is complete

A request whose first line is in order is let through or answered by the proxy itself.  Its
own answers are one line, and the only header the proxy ever adds brings the empty line
with it.
-/

namespace HttpProxy

open CString Interaction Protocol

variable {fuel : ℕ} {locals : Locals} {table : BlockTable} {job left : Job} {tr : Trace}
  {hostname : List UInt8} {out : ParseOut} {fd : ℤ} {u : Surroundings} {deadline : ℕ}

/-! ## Heads -/

theorem CompleteHead.two_le_count {bytes : List UInt8} (h : CompleteHead bytes) :
    2 ≤ bytes.count lf := by
  obtain ⟨status, headers, rest, rfl, -⟩ := h
  have hcrlf : crlf.count lf = 1 := by decide
  simp only [List.count_append, hcrlf]
  omega

theorem not_completeHead_nil : ¬CompleteHead [] := fun h ↦ absurd h.two_le_count (by decide)

/-- An answer of the proxy's own is a complete head if it has the header that closes the
connection. -/
theorem completeHead_reply {status : List UInt8} (hstatus : text "HTTP/" <+: status)
    (hline : lf ∉ status) (keepAlive : Bool) :
    CompleteHead (status ++ crlf ++ closeHeader keepAlive) ↔ keepAlive = true := by
  cases keepAlive with
  | false =>
      refine iff_of_false (fun h ↦ ?_) (by simp)
      have hcount := h.two_le_count
      have hcrlf : (crlf ++ closeHeader false).count lf = 1 := by decide
      rw [List.append_assoc, List.count_append, List.count_eq_zero_of_not_mem hline,
        hcrlf] at hcount
      omega
  | true =>
      refine iff_of_true ⟨status, [text "Proxy-Connection: close"], [], ?_, hstatus, hline, ?_⟩ rfl
      · have hclose : closeHeader true = text "Proxy-Connection: close" ++ crlf ++ crlf := by decide
        simp [hclose]
      · simpa using ⟨by decide, by decide, by decide⟩

/-- Who is asked brings a complete head: the cached file, or the stream of a server that can
be connected and takes the whole request. -/
def HeadDelivered (u : Surroundings) (path hostname : List UInt8) : Prop :=
  match cacheAnswer path u.grant, u.opened with
  | .shouldRead _, some _ => CompleteHead u.cached
  | _, _ =>
      u.connects = true ∧ (upstreamRequest path hostname).length ≤ u.takes ∧
        CompleteHead (relayed u.stream)

theorem completeHead_answer_iff {path : List UInt8} :
    CompleteHead (u.answer path hostname) ↔ HeadDelivered u path hostname := by
  have hrelayed : CompleteHead
      (if u.connects = true ∧ (upstreamRequest path hostname).length ≤ u.takes then
        relayed u.stream else []) ↔ u.connects = true ∧
          (upstreamRequest path hostname).length ≤ u.takes ∧ CompleteHead (relayed u.stream) := by
    rw [← and_assoc]
    split
    next hreached => exact (and_iff_right hreached).symm
    next hnot => exact iff_of_false not_completeHead_nil fun h ↦ hnot h.1
  unfold Surroundings.answer HeadDelivered
  cases cacheAnswer path u.grant with
  | unavailable record => exact hrelayed
  | shouldWrite record => exact hrelayed
  | shouldRead record =>
      cases u.opened with
      | none => exact hrelayed
      | some file => exact Iff.rfl

/-! ## Resolving -/

/-- The name is not in the table, and neither is one of the addresses. -/
def HostAllowed (table : BlockTable) (hostname : List UInt8)
    (resolved : Option { addresses : List Address // addresses ≠ [] }) : Prop :=
  blockTableCheck table (splitHostname hostname).1 = false ∧
    ∃ addresses, resolved = some addresses ∧
      ∃ address ∈ addresses.val, blockTableCheck table (inetNtop address) = false

/-- A result of `resolve_host` says whether the host is allowed. -/
def StatusSays (allowed : Prop) (result : HostStatus × List Address) : Prop :=
  result.1 = .ok ∧ result.2 ≠ [] ∧ allowed ∨
    (result.1 = .blocked ∨ result.1 = .notFound) ∧ ¬allowed

/-- The request has been read and nothing else has happened. -/
def HeadState.read (u : Surroundings) : HeadState := { HeadState.start u with received := true }

theorem keeps_checkAddresses (head : List Address) {addresses : List Address}
    (hne : addresses ≠ []) (s : HeadState) :
    (clientConnected u deadline).Keeps (checkAddresses table head addresses) (fun s' out ↦ s' = s ∧
      ∃ result, out = .ok result ∧ StatusSays
        (∃ address ∈ addresses, blockTableCheck table (inetNtop address) = false) result) s := by
  induction addresses with
  | nil => exact absurd rfl hne
  | cons address rest ih =>
      unfold checkAddresses
      split
      next hblocked =>
        cases rest with
        | nil => exact ⟨trivial, fun _ _ ↦ ⟨rfl, _, rfl, .inr ⟨.inl rfl, by simp [hblocked]⟩⟩⟩
        | cons next rest =>
            have hskip : (∃ a ∈ address :: next :: rest,
                blockTableCheck table (inetNtop a) = false) ↔
                  ∃ a ∈ next :: rest, blockTableCheck table (inetNtop a) = false := by
              constructor
              · rintro ⟨a, ha, hfree⟩
                rcases List.mem_cons.mp ha with rfl | ha
                · simp [hblocked] at hfree
                · exact ⟨a, ha, hfree⟩
              · rintro ⟨a, ha, hfree⟩
                exact ⟨a, List.mem_cons_of_mem _ ha, hfree⟩
            rw [hskip]
            exact ih (by simp)
      next hallowed =>
        exact ⟨rfl, _, rfl, .inl ⟨rfl, by simp, address, by simp, by simpa using hallowed⟩⟩

theorem keeps_resolveHost (s : HeadState) :
    (clientConnected u deadline).Keeps (resolveHost table hostname) (fun s' out ↦ s' = s ∧
      ∃ result, out = .ok result ∧ StatusSays (HostAllowed table hostname u.resolved) result)
      s := by
  unfold resolveHost
  split
  next hname => exact ⟨rfl, _, rfl, .inr ⟨.inl rfl, fun h ↦ by simp [hname, HostAllowed] at h⟩⟩
  next hname =>
    refine ⟨trivial, fun resolved hresolved ↦ ?_⟩
    obtain rfl : resolved = u.resolved := hresolved
    have hallowed : HostAllowed table hostname u.resolved ↔ ∃ addresses,
        u.resolved = some addresses ∧
          ∃ address ∈ addresses.val, blockTableCheck table (inetNtop address) = false := by
      simp [HostAllowed, hname]
    rw [hallowed]
    cases u.resolved with
    | none => exact ⟨rfl, _, rfl, .inr ⟨.inr rfl, by simp⟩⟩
    | some addresses =>
        apply (keeps_checkAddresses addresses.val addresses.property _).mono
        rintro s' out ⟨rfl, result, rfl, hsays⟩
        refine ⟨rfl, result, rfl, ?_⟩
        simpa using hsays

/-! ## Answering -/

/-- The request is handed on to the cache or the server. -/
def LetThrough (table : BlockTable) (out : ParseOut) (u : Surroundings) : Prop :=
  out.isGet = true ∧ HostAllowed table (cstr out.hostname 0) u.resolved

/-- Who answers the request ends the head: the cached file or the server if it is let
through, and the proxy itself if the client has asked to keep the connection. -/
structure Ended (table : BlockTable) (out : ParseOut) (u : Surroundings) : Prop where
  delivered : LetThrough table out u → HeadDelivered u (cstr out.path 0) (cstr out.hostname 0)
  keepAlive : ¬LetThrough table out u → out.proxyKeepAlive = true

theorem keeps_sendReply {s : HeadState} (hfd : job.clientSocketFd ≠ -1) (addresses : List Address)
    (reply : List UInt8) :
    (clientConnected u deadline).Keeps (sendReply job addresses reply)
      (fun s' out ↦ out = .ok () ∧ s' = { s with sent := s.sent ++ reply }) s := by
  apply (keeps_trySendInChunks_connected hfd _ _).bind
  · rintro s' status ⟨-, rfl⟩
    exact ⟨trivial, fun _ _ ↦ ⟨rfl, by simp [clientConnected, HeadState.next]⟩⟩
  · rintro s' fault ⟨hfault, -⟩
    cases hfault

theorem triple_refused {version line : List UInt8} (reason : List UInt8)
    (hfd : job.clientSocketFd ≠ -1) (addresses : List Address)
    (hline : line = reason ++ crlf) (hversion : text "HTTP/" <+: version)
    (hstatus : lf ∉ version ++ reason) (hrefused : ¬LetThrough table out u) :
    (clientConnected u deadline).Triple (· = .read u)
      (sendReply job addresses (version ++ line ++ closeHeader out.proxyKeepAlive))
      fun _ s ↦ CompleteHead s.sent ↔ Ended table out u := by
  rintro s rfl
  apply (keeps_sendReply hfd addresses _).mono
  rintro s' - ⟨-, rfl⟩ ⟨⟩ -
  have hreply : version ++ line ++ closeHeader out.proxyKeepAlive =
      version ++ reason ++ crlf ++ closeHeader out.proxyKeepAlive := by simp [hline]
  have hhttp : text "HTTP/" <+: version ++ reason := hversion.trans (List.prefix_append _ _)
  change CompleteHead ([] ++ _) ↔ _
  rw [List.nil_append, hreply, completeHead_reply hhttp hstatus]
  exact ⟨fun h ↦ ⟨fun h' ↦ absurd h' hrefused, fun _ ↦ h⟩, fun h ↦ h.keepAlive hrefused⟩

theorem triple_answerRequest {version : List UInt8} (hfd : job.clientSocketFd ≠ -1)
    (hversion : version = text "HTTP/1.0 " ∨ version = text "HTTP/1.1 ") :
    (clientConnected u deadline).Triple (· = .read u)
      (answerRequest fuel locals table job out version)
      fun _ s ↦ CompleteHead s.sent ↔ Ended table out u := by
  have hhttp : text "HTTP/" <+: version := by
    rcases hversion with rfl | rfl <;> decide
  have hlf {reason : List UInt8} (hreason : lf ∉ reason) : lf ∉ version ++ reason := by
    rw [List.mem_append, not_or]
    refine ⟨?_, hreason⟩
    rcases hversion with rfl | rfl <;> decide
  rintro s rfl
  apply (keeps_resolveHost (.read u)).bind
  · rintro s' result ⟨rfl, _, ⟨⟩, hsays⟩
    split
    next hget =>
      have hrefused : ¬LetThrough table out u := by simp [LetThrough, hget]
      exact triple_refused (text "405 Method Not Allowed") hfd _ (by decide) hhttp
        (hlf (by decide)) hrefused _ rfl
    next hget =>
      have hget : out.isGet = true := by simpa using hget
      obtain ⟨status, addresses⟩ := result
      rcases hsays with ⟨rfl, hne, hallowed⟩ | ⟨hstatus, hnot⟩
      · obtain ⟨address, rest, rfl⟩ := List.exists_cons_of_ne_nil hne
        refine (sends_handleValidRequest hfd rfl _ _ _ rfl).bind ?_ ?_
        · intro s status hs
          have hsent : s.sent = u.answer (cstr out.path 0) (cstr out.hostname 0) := hs status rfl
          refine ⟨trivial, fun _ _ _ _ ↦ ?_⟩
          change CompleteHead s.sent ↔ Ended table out u
          have hthrough : LetThrough table out u := ⟨hget, hallowed⟩
          rw [hsent, completeHead_answer_iff]
          exact ⟨fun h ↦ ⟨fun _ ↦ h, fun h' ↦ absurd hthrough h'⟩, fun h ↦ h.delivered hthrough⟩
        · intro s fault _ a ha
          cases ha
      · have hrefused : ¬LetThrough table out u := fun h ↦ hnot h.2
        rcases hstatus with rfl | rfl
        · exact triple_refused (text "403 Forbidden") hfd _ (by decide) hhttp
            (hlf (by decide)) hrefused _ rfl
        · exact triple_refused (text "404 Not Found") hfd _ (by decide) hhttp
            (hlf (by decide)) hrefused _ rfl
  · rintro s' fault ⟨-, _, ⟨⟩, -⟩

theorem triple_rejected {reply : List UInt8} (hfd : job.clientSocketFd ≠ -1)
    (hline : reply.count lf = 1) :
    (clientConnected u deadline).Triple (· = .read u) (do
      let _ ← trySendInChunks (.client job.clientSocketFd) reply reply.length
      .ret ()) fun _ s ↦ ¬CompleteHead s.sent := by
  rintro s rfl
  apply (keeps_trySendInChunks_connected hfd _ _).bind
  · rintro s' status ⟨-, rfl⟩ ⟨⟩ - h
    have hsent : [] ++ reply.take (reply.length : ℤ).toNat = reply := by simp
    have hcount := h.two_le_count
    change 2 ≤ ([] ++ reply.take (reply.length : ℤ).toNat).count lf at hcount
    rw [hsent, hline] at hcount
    omega
  · rintro s' fault ⟨⟨⟩, -⟩

theorem triple_respond (hfd : job.clientSocketFd ≠ -1) (version : HttpVersion) :
    (clientConnected u deadline).Triple (· = .read u) (respond fuel locals table job out version)
      fun _ s ↦ CompleteHead s.sent ↔
        (version = .dotZero ∨ version = .dotOne) ∧ Ended table out u := by
  cases version with
  | malformed =>
      exact (triple_rejected hfd (by decide)).mono (fun _ hs ↦ hs) fun _ _ hs ↦
        iff_of_false hs (by simp)
  | notSupported =>
      exact (triple_rejected hfd (by decide)).mono (fun _ hs ↦ hs) fun _ _ hs ↦
        iff_of_false hs (by simp)
  | dotZero =>
      exact (triple_answerRequest hfd (.inl rfl)).mono (fun _ hs ↦ hs) fun _ _ hs ↦
        hs.trans (and_iff_right (.inl rfl)).symm
  | dotOne =>
      exact (triple_answerRequest hfd (.inr rfl)).mono (fun _ hs ↦ hs) fun _ _ hs ↦
        hs.trans (and_iff_right (.inr rfl)).symm

/-! ## The request -/

/-- The first line is in order, and who answers ends the head. -/
def HeadReady (locals : Locals) (table : BlockTable) (request : List UInt8) (u : Surroundings) :
    Prop :=
  ∃ left out, parseRequestString request locals.parseOut = .ok (.success, left, out) ∧
    (out.version = .dotZero ∨ out.version = .dotOne) ∧ Ended table out u

/-- What has been answered is what the job holds. -/
def AnswersHead (locals : Locals) (table : BlockTable) (request : List UInt8) (u : Surroundings)
    (s : HeadState) : Prop :=
  lf ∈ cstr request 0 → (CompleteHead s.sent ↔ HeadReady locals table request u)

theorem triple_parseJob (hfd : job.clientSocketFd ≠ -1) :
    (clientConnected u deadline).Triple (· = .read u) (parseJob fuel locals table job)
      fun _ s ↦ AnswersHead locals table job.request u s := by
  unfold parseJob
  cases hparse : parseRequestString job.request locals.parseOut with
  | error fault => exact triple_halt _
  | ok parsed =>
      obtain ⟨status, request, out⟩ := parsed
      have hstatus := (parseRequestString_ok hparse).2
      rw [Prog.lift_ok, Prog.ret_bind]
      split
      next hwait =>
        obtain rfl : status = .fail := hwait.1
        apply triple_ret
        rintro s rfl hline
        simp [hline] at hstatus
      next =>
        refine (triple_respond hfd _).bind fun _ ↦ triple_ret fun s hs hline ↦ ?_
        obtain rfl : status = .success := hstatus.resolve_right (not_not_intro hline)
        refine hs.trans ⟨fun h ↦ ⟨request, out, hparse, h⟩, ?_⟩
        rintro ⟨request', out', hparse', h⟩
        rw [hparse] at hparse'
        cases hparse'
        exact h

/-- What one call of `recv` brings of what the client has sent. -/
def Surroundings.received (u : Surroundings) (job : Job) : List UInt8 :=
  u.request.take (jobRequestBufferSize - job.requestTail)

theorem triple_readAndParseJob (hfd : job.clientSocketFd ≠ -1) (hreceived : u.received job ≠ []) :
    (clientConnected u deadline).Triple (· = .start u) (readAndParseJob fuel locals table job)
      fun _ s ↦ AnswersHead locals table (receiveRequest job (u.received job) 0).request u s := by
  rintro s rfl
  rw [readAndParseJob, if_neg hfd]
  simp only [recv_bind, time_bind, keeps_call]
  refine ⟨trivial, fun received hanswer ↦ ?_⟩
  obtain ⟨hbytes, hlength⟩ : received.bytes = u.received job ∧
      received.length = (u.received job).length := hanswer
  have hpos : 0 < (u.received job).length := List.length_pos_iff.mpr hreceived
  rw [if_neg (by omega), if_neg (by omega), hbytes]
  refine ⟨trivial, fun now _ ↦ ?_⟩
  have hparse : (clientConnected u deadline).Triple (· = .read u)
      (parseJob fuel locals table (receiveRequest job (u.received job) now)) _ :=
    triple_parseJob hfd
  exact hparse _ rfl

theorem triple_processJob (hfd : job.clientSocketFd ≠ -1) (hreceived : u.received job ≠ []) :
    (clientConnected u job.expirationTime).Triple (· = .start u)
      (processJob fuel locals table job)
      fun _ s ↦ AnswersHead locals table (receiveRequest job (u.received job) 0).request u s := by
  unfold processJob
  split
  · exact triple_readAndParseJob hfd hreceived
  · rintro s rfl
    simp only [time_bind, keeps_call]
    refine ⟨trivial, fun now hnow ↦ ?_⟩
    have hlive : unsignedTime now ≤ job.expirationTime := hnow rfl
    rw [if_neg (by omega)]
    exact triple_readAndParseJob hfd hreceived _ rfl

/-! ## Runs -/

theorem keeps_answerRequest_notAllowed {version : List UInt8} (hfd : job.clientSocketFd ≠ -1)
    (hget : out.isGet = false) :
    (clientConnected u deadline).Keeps (answerRequest fuel locals table job out version)
      (fun s outcome ↦ outcome = .ok () ∧ s.sent =
        version ++ text "405 Method Not Allowed\r\n" ++ closeHeader out.proxyKeepAlive)
      (.read u) := by
  apply (keeps_resolveHost (.read u)).bind
  · rintro s result ⟨rfl, -⟩
    rw [if_pos hget]
    apply (keeps_sendReply hfd _ _).mono
    rintro s' _ ⟨rfl, rfl⟩
    exact ⟨rfl, rfl⟩
  · rintro s fault ⟨-, _, ⟨⟩, -⟩

/-- A server that takes the request and answers it in one chunk is heard to the end. -/
theorem keeps_fetch_oneChunk {s : HeadState} {path : List UInt8} {lengths : ℤ × ℤ}
    (hfd : job.clientSocketFd ≠ -1) (hnone : s.toServer = 0) (hconnects : u.connects = true)
    (htakes : (upstreamRequest path hostname).length ≤ u.takes)
    (hparse : parseResponseHeader (responseBuffer (nextChunk s.stream).bytes) = .ok lengths)
    (hrange : InIntRange (lengths.1 + lengths.2))
    (hwhole : lengths.1 + lengths.2 ≤ (nextChunk s.stream).length) (record : Option RecordRef)
    (address : Address) :
    (clientConnected u deadline).Keeps
      (fetch fuel job (.unavailable record) none address path hostname)
      (fun _ out ↦ out = .ok .success) s := by
  simp only [fetch, newSocket_bind, connect_bind, keeps_call]
  refine ⟨trivial, fun serverSocketFd hsocket ↦ ⟨trivial, fun connected hconnected ↦ ?_⟩⟩
  have hserver : serverSocketFd ≠ -1 := hsocket hconnects
  have hopen : connected = true := hconnected.mpr ⟨hconnects, hserver⟩
  rw [if_neg (by simp [hopen])]
  apply (keeps_trySendInChunks_server hserver hnone _).bind
  · rintro s' status ⟨-, hstream, hout⟩
    obtain ⟨⟨⟩, -⟩ := hout.resolve_right fun h ↦ by omega
    rw [if_neg (by decide)]
    simp only [relayResponse, recv_bind, keeps_call]
    refine ⟨trivial, fun received hreceived ↦ ?_⟩
    obtain ⟨hbytes, hlength⟩ := hreceived rfl
    have hstream' : s'.stream = s.stream := hstream
    rw [hbytes, hlength, hstream', hparse]
    apply (keeps_trySendInChunks_connected hfd _ _).bind
    · rintro s'' result ⟨⟨⟩, -⟩
      rw [if_neg (by decide), relayRest, if_neg (not_not_intro hrange), if_neg (by omega)]
      exact ⟨trivial, fun _ _ ↦ rfl⟩
    · rintro s'' fault ⟨⟨⟩, -⟩
  · rintro s' fault ⟨-, -, ⟨⟨⟩, -⟩ | ⟨⟨⟩, -⟩⟩

/-- A new client that sends a whole request at once is answered. -/
theorem exists_run_answered {request : List UInt8} {P : HeadState → Prop} (hfd : fd ≠ -1)
    (hne : u.request ≠ []) (hfits : u.request.length ≤ jobRequestBufferSize)
    (hparse : parseRequestString (receiveRequest (jobConstruct fd) u.request 100).request
      locals.parseOut = .ok (.success, request, out))
    (hversion : out.version = .dotOne)
    (hanswer : (clientConnected u 0).Keeps (answerRequest fuel locals table
      { receiveRequest (jobConstruct fd) u.request 100 with request := request } out
        (text "HTTP/1.1 ")) (fun s outcome ↦ outcome = .ok () ∧ P s) (.read u)) :
    ∃ tr s left, (clientConnected u 0).Run (.start u)
      (processJob fuel locals table (jobConstruct fd)) tr s (.ok (.terminate, left)) ∧ P s := by
  let job := receiveRequest (jobConstruct fd) u.request 100
  have hkeeps : (clientConnected u 0).Keeps (parseJob fuel locals table job)
      (fun s outcome ↦ (∃ left, outcome = .ok (.terminate, left)) ∧ P s) (.read u) := by
    rw [parseJob, hparse, Prog.lift_ok, Prog.ret_bind, if_neg (by simp)]
    simp only [if_neg (show (Status.success = Status.fail) → False by decide), hversion, respond]
    apply hanswer.bind
    · rintro s ⟨⟩ ⟨-, hs⟩
      exact ⟨⟨_, rfl⟩, hs⟩
    · rintro s fault ⟨⟨⟩, -⟩
  obtain ⟨tr, s, outcome, hrun⟩ := exists_run (clientConnected_total u 0)
    (parseJob fuel locals table job) (.read u)
  obtain ⟨⟨left, rfl⟩, hs⟩ := hrun.keeps hkeeps
  have hrecv : (clientConnected u 0).answers (.start u)
      (.recv (.client fd) jobRequestBufferSize true) (.data u.request hfits) := by
    have hall : u.request.take jobRequestBufferSize = u.request := List.take_of_length_le hfits
    exact ⟨hall.symm, congrArg _ (congrArg _ hall.symm)⟩
  exact ⟨_, s, left, run_processJob_new hfd hne hfits hrecv (by rintro ⟨⟩) hrun, hs⟩

/-! ## The response -/

/-- A client asks for the start page of a host, whose server answers with a head alone. -/
def emptyPage : Surroundings where
  request := text "GET http://a/ HTTP/1.1\r\n\r\n"
  resolved := some ⟨[⟨10, 0, 0, 1, 80⟩], by decide⟩
  grant := .unavailable none
  opened := none
  cached := []
  connects := true
  takes := 100
  stream := [.data (text "HTTP/1.1 200 OK\r\nContent-Length: 0\r\n\r\n") (by decide)]

theorem emptyPage_header :
    parseResponseHeader (responseBuffer (nextChunk emptyPage.stream).bytes) = .ok (38, 0) := by
  decide +kernel

theorem emptyPage_headDelivered : HeadDelivered emptyPage (text "/") (text "a") := by
  have hrelayed : relayed emptyPage.stream =
      text "HTTP/1.1 200 OK" ++ crlf ++ [text "Content-Length: 0"].flatMap (· ++ crlf) ++ crlf ++
        [] := by
    rw [relayed_of_parse emptyPage_header]
    decide
  exact ⟨rfl, by decide, _, _, _, hrelayed, by decide, by decide, by decide⟩

theorem keeps_answerRequest_emptyPage (fuel : ℕ) (hfd : job.clientSocketFd ≠ -1)
    (hget : out.isGet = true) (hpath : cstr out.path 0 = text "/")
    (hhostname : cstr out.hostname 0 = text "a") :
    (clientConnected emptyPage deadline).Keeps
      (answerRequest fuel ⟨false, .malformed, false, none⟩ [] job out (text "HTTP/1.1 "))
      (fun _ outcome ↦ outcome = .ok ()) (.read emptyPage) := by
  have hserved (address : Address) : (clientConnected emptyPage deadline).Keeps
      (handleValidRequest fuel none job address (text "/") (text "a"))
      (fun _ outcome ↦ outcome = .ok .success) (.read emptyPage) := by
    rw [handleValidRequest, if_neg (by decide), cacheRecordGetOrCreate_bind, keeps_call]
    refine ⟨trivial, fun grant hgrant ↦ ?_⟩
    obtain rfl : grant = .unavailable none := hgrant
    rw [serveGrant, if_neg fun h ↦ hfd h.1]
    have htakes : (upstreamRequest (text "/") (text "a")).length ≤ emptyPage.takes := by decide
    exact keeps_fetch_oneChunk (s := .read emptyPage) hfd rfl rfl htakes emptyPage_header
      (by decide) (by decide) none address
  apply (keeps_resolveHost (.read emptyPage)).bind
  · rintro s result ⟨rfl, _, ⟨⟩, hsays⟩
    rw [if_neg (by simp [hget])]
    obtain ⟨status, addresses⟩ := result
    obtain ⟨rfl, hne, -⟩ := hsays.resolve_right fun h ↦
      h.2 ⟨rfl, _, rfl, _, List.mem_singleton_self _, rfl⟩
    obtain ⟨address, rest, rfl⟩ := List.exists_cons_of_ne_nil hne
    rw [hpath, hhostname]
    apply (hserved address).bind
    · rintro s status ⟨⟩
      exact ⟨trivial, fun _ _ ↦ rfl⟩
    · rintro s fault ⟨⟩
  · rintro s fault ⟨-, _, ⟨⟩, -⟩

end HttpProxy
