import HttpProxy.LongFirstLine
import HttpProxy.RequestStream
import HttpProxy.SystemResources
import HttpProxy.UpstreamRequest

/-!
# A proxy behind the proxy

The request that is sent upstream has a path where the parser looks for an absolute url.  So a
proxy that is sent it, the same one or another, answers 400, whatever pieces the request comes in,
and forwards nothing.
-/

namespace HttpProxy

open CString Fallible Interaction Protocol Transition

variable {fuel : ℕ} {locals : Locals} {table : BlockTable} {job : Job} {tr : Trace}
  {outcome : Except Fault (JobStatus × Job)} {s t stream path hostname left : List UInt8}
  {out out' : ParseOut} {status : Status} {op : Op} {α β : Type}

/-- The last byte of the buffer is NUL. -/
def BufferEnds (job : Job) : Prop := job.request[jobRequestBufferSize]? = some 0

/-- What the parser leaves of an accepted request. -/
structure UpstreamTexts (path hostname : List UInt8) : Prop where
  path_slash : path.head? = some 47
  path_lf : lf ∉ path
  path_string : 0 ∉ path
  path_length : path.length ≤ maxUrlSize
  hostname_lf : lf ∉ hostname
  hostname_string : 0 ∉ hostname
  hostname_length : hostname.length ≤ maxNameLength

/-- The bytes are the start of one request for such texts. -/
def BeginsRequest (bytes : List UInt8) : Prop :=
  ∃ path hostname, UpstreamTexts path hostname ∧ bytes <+: upstreamRequest path hostname

def hostLine (hostname : List UInt8) : List UInt8 := text "Host: " ++ hostname ++ [cr]

/-- No complete line is a host line with nothing but spaces. -/
def NamesHost (bytes : List UInt8) : Prop :=
  ∀ n, hostLine (List.replicate n space) ∉ completeLines bytes

/-- A call on a job whose buffer held a part of a request only reads from its client and answers
it.  It waits for more, and answers 400 as soon as the first line has come, unless the host line
is already there and names no host: then the parser copies a negative number of bytes. -/
structure NotForwarded (fd : ℤ) (stream : List UInt8) (call : ServedCall) : Prop where
  stays : ∀ e ∈ call.trace, ReadsRequest fd e.1 ∨ SendsTo (.client fd) e.1
  awaited : lf ∉ stream ++ streamOf call.trace → bytesSent (.client fd) call.trace = [] ∧
    (streamOf call.trace ≠ [] → ∃ left, call.outcome = .ok (.enqueue, left))
  answered : lf ∈ stream ++ streamOf call.trace → streamOf call.trace ≠ [] →
    NamesHost (stream ++ streamOf call.trace) → AnswersBadRequest fd call
  faults : streamOf call.trace ≠ [] → ¬NamesHost (stream ++ streamOf call.trace) →
    call.outcome = .error .negativeLength

/-! ## The bytes that are sent to the server -/

theorem answerRequest_sendsUpstream (job : Job) (out : ParseOut) (version : List UInt8) :
    SendsUpstream (upstreamRequest (cstr out.path 0) (cstr out.hostname 0))
      (answerRequest fuel locals table job out version) := by
  refine .quiet_bind (resolveHost_quiet _ _) fun resolved ↦ ?_
  split
  · exact .of_quiet (sendReply_quiet _ _ _)
  · obtain ⟨status, addresses⟩ := resolved
    cases status with
    | blocked => exact .of_quiet (sendReply_quiet _ _ _)
    | notFound => exact .of_quiet (sendReply_quiet _ _ _)
    | error => exact .of_quiet (sendReply_quiet _ _ _)
    | ok =>
        cases addresses with
        | nil => exact .of_quiet trivial
        | cons address rest =>
            exact (handleValidRequest_sendsUpstream _ _ _ _ _).bind_quiet
              fun _ ↦ ⟨trivial, fun _ ↦ trivial⟩

theorem respond_quiet (job : Job) (out : ParseOut) {version : HttpVersion}
    (hversion : ¬(version = .dotZero ∨ version = .dotOne)) :
    (respond fuel locals table job out version).Calls Quiet := by
  cases version with
  | malformed => exact (sendToClient_quiet _ _ _).bind fun _ ↦ trivial
  | notSupported => exact (sendToClient_quiet _ _ _).bind fun _ ↦ trivial
  | dotZero => exact absurd (.inl rfl) hversion
  | dotOne => exact absurd (.inr rfl) hversion

theorem respond_sendsUpstream (job : Job) (out : ParseOut) {version : HttpVersion}
    (hversion : version = .dotZero ∨ version = .dotOne) :
    SendsUpstream (upstreamRequest (cstr out.path 0) (cstr out.hostname 0))
      (respond fuel locals table job out version) := by
  rcases hversion with rfl | rfl
  · exact answerRequest_sendsUpstream _ _ _
  · exact answerRequest_sendsUpstream _ _ _

theorem parseJob_sendsUpstream
    (hparse : parseRequestString job.request locals.parseOut = .ok (status, left, out'))
    (haccepted : Accepted status out') :
    SendsUpstream (upstreamRequest (cstr out'.path 0) (cstr out'.hostname 0))
      (parseJob fuel locals table job) := by
  obtain ⟨rfl, hversion⟩ := haccepted
  rw [parseJob, hparse, Prog.lift_ok, Prog.ret_bind, if_neg (by simp), if_neg (by simp)]
  exact (respond_sendsUpstream _ _ hversion).bind_quiet fun _ ↦ trivial

/-- A request that is parsed and answered with a version is accepted. -/
theorem accepted_of_version {request : List UInt8}
    (hparse : parseRequestString request locals.parseOut = .ok (status, left, out'))
    (hversion : (if status = .fail then .malformed else out'.version) = .dotZero ∨
      (if status = .fail then .malformed else out'.version) = .dotOne) : Accepted status out' := by
  by_cases hfail : status = .fail
  · simp [hfail] at hversion
  · rw [if_neg hfail] at hversion
    obtain hsuccess | hline := (parseRequestString_ok hparse).2
    · exact ⟨hsuccess, hversion⟩
    · rw [parseRequestString, strchr_eq_none (by decide) hline] at hparse
      cases hparse
      exact absurd rfl hfail

theorem head?_withoutLastSlash (h : path.head? = some 47) :
    (withoutLastSlash path).head? = some 47 := by
  obtain ⟨rest, rfl⟩ := List.head?_eq_some_iff.mp h
  unfold withoutLastSlash
  split
  next hlast =>
    cases rest with
    | nil => exact absurd rfl hlast.1
    | cons c rest => rfl
  next => rfl

theorem upstreamTexts_of_accepted {t rest : List UInt8} (ht : 0 ∉ t)
    (h : parseRequestString (t ++ 0 :: rest) locals.parseOut = .ok (status, left, out'))
    (haccepted : Accepted status out') :
    UpstreamTexts (cstr out'.path 0) (cstr out'.hostname 0) := by
  obtain ⟨⟨hpath, hhost⟩, hpathLength, hhostLength⟩ := accepted_texts ht h haccepted
  refine ⟨?_, hpath, nul_notMem_cstr _ _, hpathLength, hhost, nul_notMem_cstr _ _, hhostLength⟩
  obtain ⟨rfl, hversion⟩ := haccepted
  obtain ⟨r, -, hleaves⟩ := exists_leaves ht locals.buffersFit h hversion
  obtain ⟨path, hpath⟩ := List.head?_eq_some_iff.mp r.path_slash
  rw [hleaves.path, hpath]
  exact head?_withoutLastSlash rfl

theorem beginsRequest_nil : BeginsRequest [] :=
  ⟨[47], [], ⟨rfl, by decide, by decide, by decide, List.not_mem_nil, List.not_mem_nil,
    Nat.zero_le _⟩, List.nil_prefix⟩

/-- What a job sends to a server is the start of one request. -/
theorem run_parseJob_upstream (fd : ℤ) (hend : 0 ∈ job.request)
    (hrun : anything.Run () (parseJob fuel locals table job) tr () outcome) :
    BeginsRequest (bytesSent (.server fd) tr) := by
  cases run_parseJob_cases hrun with
  | faults => exact beginsRequest_nil
  | waits => exact beginsRequest_nil
  | responds parsed responded hparse hrespond =>
      obtain ⟨status, left, out'⟩ := parsed
      replace hrespond : anything.Run () (respond fuel locals table { job with request := left }
        out' (if status = .fail then .malformed else out'.version)) tr () responded := hrespond
      by_cases hversion : (if status = .fail then .malformed else out'.version) = .dotZero ∨
          (if status = .fail then .malformed else out'.version) = .dotOne
      · have haccepted := accepted_of_version hparse hversion
        have hsent := (parseJob_sendsUpstream hparse haccepted fd tr _ hrun).1
        obtain ⟨t, rest, hrequest, ht⟩ := List.eq_append_cons_of_mem hend
        rw [hrequest] at hparse
        exact ⟨_, _, upstreamTexts_of_accepted ht hparse haccepted, hsent⟩
      · -- Without a version only the client is answered.
        rw [bytesSent_of_quiet fd (respond_quiet _ _ hversion) hrespond]
        exact beginsRequest_nil

theorem BufferEnds.nul_mem (h : BufferEnds job) : 0 ∈ job.request := List.mem_of_getElem? h

/-- What is received does not come to the last byte. -/
theorem BufferEnds.receive {bytes : List UInt8} {now : ℕ} (h : BufferEnds job)
    (hfits : bytes.length ≤ jobRequestBufferSize - job.requestTail) :
    BufferEnds (receiveRequest job bytes now) := by
  simp only [BufferEnds, receiveRequest]
  by_cases htail : job.requestTail ≤ jobRequestBufferSize
  · have hlength : jobRequestBufferSize < job.request.length := (List.getElem?_eq_some_iff.mp h).1
    have hstart : (job.request.take job.requestTail ++ bytes).length =
        job.requestTail + bytes.length := by
      rw [List.length_append, List.length_take]
      omega
    rw [List.getElem?_append_right (by omega), hstart, List.getElem?_drop,
      Nat.add_sub_cancel' (by omega)]
    exact h
  · obtain rfl : bytes = [] := List.length_eq_zero_iff.mp (by omega)
    rwa [List.append_nil, List.length_nil, Nat.add_zero, List.take_append_drop]

theorem Holds.bufferEnds (h : Holds job s) : BufferEnds job := by
  have hfits := h.fits
  rw [BufferEnds, h.request, List.getElem?_append_right hfits, ← List.replicate_succ,
    List.getElem?_replicate_of_lt (by omega)]

theorem prefetchJob_bufferEnds (hostname link : List UInt8) :
    BufferEnds (prefetchJob hostname link) := by
  have hdrop : (prefetchJob hostname link).request.drop jobRequestBufferSize =
      (jobConstruct (-1)).request.drop jobRequestBufferSize := drop_strncpy le_rfl
  have hlast := congrArg (·[0]?) hdrop
  simp only [List.getElem?_drop, Nat.add_zero] at hlast
  exact hlast.trans (holds_jobConstruct (-1)).bufferEnds

theorem run_processJob_upstream (fd : ℤ) (hend : BufferEnds job)
    (hrun : anything.Run () (processJob fuel locals table job) tr () outcome) :
    BeginsRequest (bytesSent (.server fd) tr) := by
  have hread (tr : Trace)
      (hrun : anything.Run () (readAndParseJob fuel locals table job) tr () outcome) :
      BeginsRequest (bytesSent (.server fd) tr) := by
    cases run_readAndParseJob_cases hrun with
    | prefetch _ hparse => exact run_parseJob_upstream fd hend.nul_mem hparse
    | noData => exact beginsRequest_nil
    | closed => exact beginsRequest_nil
    | data _ bytes now _ hfits _ _ hparse =>
        have hsent := run_parseJob_upstream fd (hend.receive hfits).nul_mem hparse
        exact hsent
  rcases run_processJob_cases hrun with ⟨-, hrun⟩ | ⟨-, now, tr, -, rfl, ⟨-, rfl, -⟩ | ⟨-, hrun⟩⟩
  · exact hread tr hrun
  · exact beginsRequest_nil
  · exact hread tr hrun

/-! ## The parser and the request -/

theorem not_http_of_slash {url : List UInt8} (h : url.head? = some 47) :
    matchesCommandCaseInsensitive url "http://" = false := by
  obtain ⟨rest, rfl⟩ := List.head?_eq_some_iff.mp h
  rw [Bool.eq_false_iff, ne_eq, matchesHttp_iff]
  intro hhttp
  have hfirst : toLower 47 = (text "http://").head (by decide) := by
    simp [← hhttp]
  exact absurd hfirst (by decide)

theorem applyUrl_of_slash {url : List UInt8} (h : url.head? = some 47) (out : ParseOut) :
    applyUrl url out = .ok { out with version := .malformed } := by
  rw [applyUrl, not_http_of_slash h]
  rfl

/-- The line that is sent upstream. -/
def upstreamLine (path : List UInt8) : List UInt8 :=
  text "GET" ++ space :: (path ++ space :: text "HTTP/1.1\r")

theorem upstreamLine_hasUrl (hne : path ≠ []) : HasUrl (upstreamLine path) path := by
  have hmethod : requestMethod (upstreamLine path) = some true := rfl
  refine ⟨text "GET", text "HTTP/1.1\r", rfl, ?_, ?_, hne, .inr ?_, by simp [hmethod]⟩
  all_goals decide

theorem parseLineText_upstream {headers : List UInt8} (hslash : path.head? = some 47)
    (h : parseLineText (upstreamLine path) headers out = .ok (status, out')) :
    status = .success ∧ out'.version = .malformed := by
  have hne : path ≠ [] := by
    rintro rfl
    cases hslash
  rcases parseLineText_cases (upstreamLine path) out with
    ⟨hnone, -⟩ | ⟨url, version, isGet, hurl, hend⟩
  · exact absurd (upstreamLine_hasUrl hne) (hnone path)
  · obtain rfl := hurl.unique (upstreamLine_hasUrl hne)
    rw [hend, applyUrl_of_slash hslash] at h
    obtain ⟨_, ⟨⟩, h⟩ := bind_eq_ok.mp h
    obtain ⟨read, hread, h⟩ := bind_eq_ok.mp h
    cases h
    exact ⟨rfl, (headerLines_ok hread).version⟩

/-- The complete lines of a part are the first ones of the whole. -/
theorem completeLines_take (s more : List UInt8) :
    completeLines s <+: completeLines (s ++ more) := by
  induction s with
  | nil => exact List.nil_prefix
  | cons c s ih =>
      simp only [List.cons_append, completeLines]
      split
      · exact (List.prefix_cons_inj _).mpr ih
      · cases hs : completeLines s with
        | nil => exact List.nil_prefix
        | cons line lines =>
            rw [hs] at ih
            obtain ⟨rest, hrest⟩ := ih
            rw [← hrest]
            exact ⟨rest, rfl⟩

/-- The header lines that are sent upstream. -/
def upstreamHeaders (hostname : List UInt8) : List (List UInt8) :=
  [hostLine hostname, text "Connection: close\r", text "Proxy-Connection: close\r", [cr]]

theorem upstreamLines_eq (path hostname : List UInt8) :
    (upstreamLines path hostname).map (· ++ [cr]) =
      upstreamLine path :: upstreamHeaders hostname := by
  have hfirst : text "GET " = text "GET" ++ [space] := by decide
  have hversion : text " HTTP/1.1" ++ [cr] = space :: text "HTTP/1.1\r" := by decide
  have hline : (text "GET " ++ path ++ text " HTTP/1.1") ++ [cr] = upstreamLine path := by
    rw [List.append_assoc, hversion, hfirst, upstreamLine]
    simp
  rw [upstreamLines, List.map_cons, hline]
  rfl

/-- A part of the request with the first line is this line and some of the headers. -/
theorem exists_headers (h : UpstreamTexts path hostname)
    (hs : s <+: upstreamRequest path hostname) (hlf : lf ∈ s) :
    ∃ headers, s = upstreamLine path ++ lf :: headers ∧ lf ∉ upstreamLine path ∧
      completeLines headers <+: upstreamHeaders hostname := by
  obtain ⟨line, headers, rfl, hline⟩ := List.eq_append_cons_of_mem hlf
  obtain ⟨more, hmore⟩ := hs
  have hlines := completeLines_take (line ++ lf :: headers) more
  have hwhole := upstreamLines_notMem h.path_lf h.hostname_lf
  rw [hmore, upstreamRequest_eq, completeLines_flatMap hwhole, upstreamLines_eq,
    completeLines_append hline, List.cons_prefix_cons] at hlines
  obtain ⟨rfl, hheaders⟩ := hlines
  exact ⟨headers, rfl, hline, hheaders⟩

/-! ## The host line -/

theorem hostValue_hostLine (hostname : List UInt8) :
    hostValue (hostLine hostname) = hostname.dropWhile (· == space) ++ [cr] := by
  have hstart : text "Host: " = text "Host:" ++ [space] := by decide
  have hname : (text "Host:").dropWhile (· != space) = [] := by decide
  have hrest : hostLine hostname = text "Host:" ++ (space :: (hostname ++ [cr])) := by
    rw [hostLine, hstart]
    simp
  rw [hostValue, hrest, List.dropWhile_append, hname]
  simp only [List.isEmpty_nil, if_true]
  rw [List.dropWhile_cons_of_neg (by decide), List.dropWhile_cons_of_pos (by decide),
    List.dropWhile_append]
  split
  next hall =>
    rw [List.isEmpty_iff.mp hall]
    rfl
  next => rfl

theorem hostLine_fits_iff (hlength : hostname.length ≤ maxNameLength) :
    HostLineFits (hostLine hostname) ↔ ∃ c ∈ hostname, c ≠ space := by
  have hshort : (hostname.dropWhile (· == space)).length ≤ hostname.length :=
    (List.dropWhile_suffix _).length_le
  rw [HostLineFits, hostValue_hostLine, List.length_append, List.length_singleton]
  constructor
  · rintro ⟨hlong, -⟩
    by_contra hnone
    have hall : hostname.dropWhile (· == space) = [] := by
      rw [List.dropWhile_eq_nil_iff]
      intro c hc
      simpa using fun hne ↦ hnone ⟨c, hc, hne⟩
    simp [hall] at hlong
  · rintro ⟨c, hc, hne⟩
    refine ⟨?_, by omega⟩
    have hsome : hostname.dropWhile (· == space) ≠ [] := by
      intro hall
      exact hne (by simpa using List.dropWhile_eq_nil_iff.mp hall c hc)
    have hpos := List.length_pos_iff.mpr hsome
    omega

theorem hostLine_isHostLine (hostname : List UInt8) : IsHostLine (hostLine hostname) := by
  rw [hostLine, List.append_assoc]
  exact strncasecmpEq_iff.mpr ⟨_, (List.map_append).symm⟩

theorem hostLine_ne_upstreamLine (hostname path : List UInt8) :
    hostLine hostname ≠ upstreamLine path := by
  have hhost : text "Host: " = 72 :: text "ost: " := by decide
  have hget : text "GET" = 71 :: text "ET" := by decide
  rw [hostLine, upstreamLine, hhost, hget]
  intro heq
  exact absurd (List.cons.inj heq).1 (by decide)

/-- The host line is the only header that names a host. -/
theorem eq_hostLine_of_mem {line : List UInt8} (hmem : line ∈ upstreamHeaders hostname)
    (hhost : IsHostLine line) : line = hostLine hostname := by
  have hothers : ∀ line ∈ (upstreamHeaders hostname).tail, ¬IsHostLine line := by
    simp only [upstreamHeaders, List.tail_cons]
    decide
  rcases List.mem_cons.mp hmem with rfl | htail
  · rfl
  · exact absurd hhost (hothers line htail)

/-- The parser gets through exactly if the host line names a host. -/
theorem requestSafe_upstream {headers : List UInt8} (h : UpstreamTexts path hostname)
    (hline : lf ∉ upstreamLine path)
    (hheaders : completeLines headers <+: upstreamHeaders hostname) :
    RequestSafe (upstreamLine path ++ lf :: headers) ↔
      NamesHost (upstreamLine path ++ lf :: headers) := by
  have hne : path ≠ [] := by
    rintro rfl
    cases h.path_slash
  rw [NamesHost, completeLines_append hline]
  constructor
  · intro hsafe n hmem
    have hheader := (List.mem_cons.mp hmem).resolve_left (hostLine_ne_upstreamLine _ _)
    have hfits := (hsafe _ headers path rfl hline (upstreamLine_hasUrl hne)).2 _ hheader
      (hostLine_isHostLine _)
    have hlong := hfits.1
    rw [hostValue_hostLine, List.dropWhile_replicate] at hlong
    simp at hlong
  · -- The url is a path, so only the host line can make the parser go wrong.
    intro hnames line headers' url heq hnone hurl
    obtain ⟨rfl, rfl⟩ := first_split_unique heq hline hnone
    obtain rfl := hurl.unique (upstreamLine_hasUrl hne)
    refine ⟨fun hhttp ↦ ?_, fun header hheader hhost ↦ ?_⟩
    · rw [not_http_of_slash h.path_slash] at hhttp
      cases hhttp
    · obtain rfl := eq_hostLine_of_mem (hheaders.subset hheader) hhost
      refine (hostLine_fits_iff h.hostname_length).mpr ?_
      by_contra hnone
      have hall : ∀ c ∈ hostname, c = space := fun c hc ↦
        by_contra fun hne ↦ hnone ⟨c, hc, hne⟩
      rw [List.eq_replicate_of_mem hall] at hheader
      exact hnames _ (List.mem_cons_of_mem _ hheader)

/-- Only a host line without a host makes the parser go wrong, and always in the same way. -/
theorem headerLine_upstream_fault {line : List UInt8} {fault : Fault}
    (hlength : hostname.length ≤ maxNameLength) (hmem : line ∈ upstreamHeaders hostname)
    (hout : BuffersFit out) (h : headerLine out line = .error fault) :
    fault = .negativeLength := by
  unfold headerLine at h
  split at h
  next => cases h
  next =>
    split at h
    next hhost =>
      obtain rfl := eq_hostLine_of_mem hmem hhost
      rcases lineHost_decides (hostLine hostname) hout.hostname_length with
        ⟨-, _, hok, -⟩ | ⟨hwrong, -⟩
      · rw [hok] at h
        cases h
      · have hshort : ((hostValue (hostLine hostname)).length : ℤ) - 2 < 0 := by
          have hvalue : (hostname.dropWhile (· == space)).length ≤ hostname.length :=
            (List.dropWhile_suffix _).length_le
          rw [HostLineFits, hostValue_hostLine, List.length_append, List.length_singleton] at hwrong
          rw [hostValue_hostLine, List.length_append, List.length_singleton]
          omega
        rw [lineHost, copyName, copyChecked, if_pos hshort] at h
        cases h
        rfl
    next => cases h

theorem parseLineText_upstream_fault {headers : List UInt8} {fault : Fault}
    (h : UpstreamTexts path hostname) (hout : BuffersFit out)
    (hheaders : completeLines headers <+: upstreamHeaders hostname)
    (hparse : parseLineText (upstreamLine path) headers out = .error fault) :
    fault = .negativeLength := by
  have hne : path ≠ [] := by
    rintro rfl
    cases h.path_slash
  rcases parseLineText_cases (upstreamLine path) out with
    ⟨hnone, -⟩ | ⟨url, version, isGet, hurl, hend⟩
  · exact absurd (upstreamLine_hasUrl hne) (hnone path)
  · obtain rfl := hurl.unique (upstreamLine_hasUrl hne)
    rw [hend, applyUrl_of_slash h.path_slash] at hparse
    let start : ParseOut :=
      { out with version := .malformed, isGet := isGet, proxyKeepAlive := false }
    have hfit : BuffersFit start := ⟨hout.1, hout.2, hout.3⟩
    replace hparse : ((completeLines headers).foldlM headerLine start >>=
      fun out ↦ .ok (Status.success, out)) = .error fault := hparse
    cases hread : (completeLines headers).foldlM headerLine start with
    | ok read =>
        rw [hread] at hparse
        cases hparse
    | error fault' =>
        rw [hread] at hparse
        cases hparse
        refine error_of_foldlM (P := BuffersFit) (E := (· = .negativeLength)) ?_ ?_ hfit hread
        · intro out line read hfit hline hok
          rcases headerLine_decides line hfit with ⟨-, read', hok', hfit'⟩ | ⟨-, _, hbad⟩
          · rw [hok'] at hok
            cases hok
            exact hfit'
          · rw [hbad] at hok
            cases hok
        · intro out line fault hfit hline
          exact headerLine_upstream_fault h.hostname_length (hheaders.subset hline) hfit

theorem parseText_upstream_fault {fault : Fault} (h : UpstreamTexts path hostname)
    (hout : BuffersFit out) (hs : s <+: upstreamRequest path hostname) (hlf : lf ∈ s)
    (hparse : parseText s out = .error fault) : fault = .negativeLength := by
  obtain ⟨headers, rfl, hline, hheaders⟩ := exists_headers h hs hlf
  rw [parseText_line _ hline] at hparse
  exact parseLineText_upstream_fault h hout hheaders hparse

/-- Of the request with its first line the parser makes a malformed one. -/
theorem parseText_upstream (h : UpstreamTexts path hostname) (hout : BuffersFit out)
    (hs : s <+: upstreamRequest path hostname) (hlf : lf ∈ s) :
    Decides (parseText s out) (NamesHost s)
      fun result ↦ result.1 = .success ∧ result.2.version = .malformed := by
  obtain ⟨headers, rfl, hline, hheaders⟩ := exists_headers h hs hlf
  rcases parseText_decides (t := upstreamLine path ++ lf :: headers) hout with
    ⟨hsafe, ⟨status, out'⟩, hok, -⟩ | ⟨hwrong, hfault⟩
  · refine .inl ⟨(requestSafe_upstream h hline hheaders).mp hsafe, _, hok, ?_⟩
    rw [parseText_line _ hline] at hok
    exact parseLineText_upstream h.path_slash hok
  · exact .inr ⟨mt (requestSafe_upstream h hline hheaders).mpr hwrong, hfault⟩

/-! ## One call of the second proxy -/

/-- A call does nothing but read, or it parses the stream so far. -/
inductive ReadsFirst (fuel : ℕ) (locals : Locals) (table : BlockTable) (job : Job) :
    Trace → Except Fault (JobStatus × Job) → Prop
  | unread {tr : Trace} {status : JobStatus}
      (hreads : ∀ e ∈ tr, ReadsRequest job.clientSocketFd e.1)
      (hnothing : streamOf tr = []) : ReadsFirst fuel locals table job tr (.ok (status, job))
  | parsed {before after : Trace} {outcome : Except Fault (JobStatus × Job)} (chunk : List UInt8)
      (now : ℕ) (hreads : ∀ e ∈ before, ReadsRequest job.clientSocketFd e.1)
      (hchunk : streamOf before = chunk)
      (hfits : chunk.length ≤ jobRequestBufferSize - job.requestTail)
      (hrun : anything.Run () (parseJob fuel locals table (receiveRequest job chunk now)) after ()
        outcome) : ReadsFirst fuel locals table job (before ++ after) outcome

theorem ReadsRequest.readsClient {fd : ℤ} (h : ReadsRequest fd op) : ReadsClient op := by
  cases op with
  | time => trivial
  | recv socket size dontWait =>
      obtain rfl : socket = .client fd := h
      trivial
  | _ => exact h.elim

theorem run_readAndParseJob_reads (hfd : job.clientSocketFd ≠ -1)
    (h : anything.Run () (readAndParseJob fuel locals table job) tr () outcome) :
    ReadsFirst fuel locals table job tr outcome := by
  cases run_readAndParseJob_cases h with
  | prefetch hnone => exact absurd hnone hfd
  | noData => exact .unread (by simp [ReadsRequest]) rfl
  | closed => exact .unread (by simp [ReadsRequest]) rfl
  | data _ chunk now _ hfits _ _ hrun =>
      have hreads : ∀ e ∈ [(⟨.recv (.client job.clientSocketFd)
          (jobRequestBufferSize - job.requestTail) true, .data chunk hfits⟩ : Event Resp),
            ⟨.time, now⟩], ReadsRequest job.clientSocketFd e.1 := by simp [ReadsRequest]
      have hchunk : streamOf [⟨.recv (.client job.clientSocketFd)
          (jobRequestBufferSize - job.requestTail) true, .data chunk hfits⟩, ⟨.time, now⟩] =
            chunk := by simp [streamOf, fromClient, RecvResult.bytes]
      exact .parsed chunk now hreads hchunk hfits hrun

theorem ReadsFirst.time (h : ReadsFirst fuel locals table job tr outcome) (now : ℕ) :
    ReadsFirst fuel locals table job (⟨.time, now⟩ :: tr) outcome := by
  have htime : ReadsRequest job.clientSocketFd .time := trivial
  cases h with
  | unread hreads hnothing => exact .unread (List.forall_mem_cons.mpr ⟨htime, hreads⟩) hnothing
  | @parsed before after _ chunk clock hreads hchunk hfits hrun =>
      have hclocked : streamOf (⟨.time, now⟩ :: before) = chunk := hchunk
      exact .parsed chunk clock (List.forall_mem_cons.mpr ⟨htime, hreads⟩) hclocked hfits hrun

theorem run_processJob_reads (hfd : job.clientSocketFd ≠ -1)
    (h : anything.Run () (processJob fuel locals table job) tr () outcome) :
    ReadsFirst fuel locals table job tr outcome := by
  rcases run_processJob_cases h with ⟨-, hread⟩ | ⟨-, now, tr, -, rfl, hcall⟩
  · exact run_readAndParseJob_reads hfd hread
  · rcases hcall with ⟨-, rfl, rfl⟩ | ⟨-, hread⟩
    · exact .unread (by simp [ReadsRequest]) rfl
    · exact (run_readAndParseJob_reads hfd hread).time now

/-- A malformed request is answered with 400. -/
theorem run_parseJob_malformed (hfd : job.clientSocketFd ≠ -1)
    (hparse : parseRequestString job.request locals.parseOut = .ok (.success, left, out'))
    (hversion : out'.version = .malformed)
    (h : anything.Run () (parseJob fuel locals table job) tr () outcome) :
    (∀ e ∈ tr, SendsTo (.client job.clientSocketFd) e.1) ∧
      AnswersBadRequest job.clientSocketFd ⟨tr, outcome⟩ := by
  rw [parseJob, hparse, Prog.lift_ok, Prog.ret_bind, if_neg (by simp), if_neg (by simp),
    hversion] at h
  rcases h.bind_cases with ⟨fault, hrespond, -⟩ | ⟨_, tr₁, s₁, tr₂, hrespond, hend, rfl⟩
  · obtain ⟨_, _, _, _, -, hret, -⟩ := run_trySendInChunks_bind hrespond
    cases (run_ret.mp hret).2.2
  · obtain ⟨rfl, -, rfl⟩ := run_ret.mp hend
    obtain ⟨_, tr₃, s₃, tr₄, hsend, hret, rfl⟩ := run_trySendInChunks_bind hrespond
    obtain ⟨rfl, -, -⟩ := run_ret.mp hret
    obtain ⟨hto, -, -⟩ := run_trySendInChunks hsend
    obtain ⟨hfront, hwhole⟩ := run_sendToClient hfd hsend
    rw [List.append_nil, List.append_nil]
    exact ⟨hto, ⟨_, rfl⟩, hfront, hwhole⟩

/-- A request that the parser faults on is not answered. -/
theorem run_parseJob_faults {fault : Fault}
    (hparse : parseRequestString job.request locals.parseOut = .error fault)
    (h : anything.Run () (parseJob fuel locals table job) tr () outcome) :
    tr = [] ∧ outcome = .error fault := by
  rw [parseJob, hparse, Prog.lift_error, Prog.halt_bind, run_halt] at h
  exact ⟨h.1, h.2.2⟩

theorem streamOf_append (tr tr' : Trace) : streamOf (tr ++ tr') = streamOf tr ++ streamOf tr' :=
  List.flatMap_append

theorem streamOf_of_sends {fd : ℤ} (h : ∀ e ∈ tr, SendsTo (.client fd) e.1) : streamOf tr = [] := by
  rw [streamOf, List.flatMap_eq_nil_iff]
  rintro ⟨op, r⟩ he
  rcases h _ he with hpeek | ⟨bytes, hsend⟩
  · obtain rfl : op = .peek (.client fd) := hpeek
    rfl
  · obtain rfl : op = .send (.client fd) bytes := hsend
    rfl

theorem UpstreamTexts.string (h : UpstreamTexts path hostname)
    (hs : s <+: upstreamRequest path hostname) : 0 ∉ s := by
  have hwords : 0 ∉ text "GET " ∧ 0 ∉ text " HTTP/1.1\r\nHost: " ∧
      0 ∉ text "\r\nConnection: close\r\nProxy-Connection: close\r\n\r\n" := by decide
  intro hmem
  have hwhole := hs.subset hmem
  simp only [upstreamRequest, List.mem_append] at hwhole
  rcases hwhole with (((hget | hpath) | hversion) | hhost) | hend
  · exact hwords.1 hget
  · exact h.path_string hpath
  · exact hwords.2.1 hversion
  · exact h.hostname_string hhost
  · exact hwords.2.2 hend

/-- The whole request is far from filling the buffer. -/
theorem UpstreamTexts.length_lt (h : UpstreamTexts path hostname)
    (hs : s <+: upstreamRequest path hostname) : s.length < jobRequestBufferSize - 1 := by
  have hlength := hs.length_le
  have hpath := h.path_length
  have hhost := h.hostname_length
  rw [upstreamRequest_length] at hlength
  simp only [maxUrlSize, maxNameLength, jobRequestBufferSize] at hpath hhost ⊢
  omega

/-- With the first line in the buffer the call answers 400, or the host line makes it fault. -/
theorem Holds.ends_of_line {now : ℕ} (hholds : Holds (receiveRequest job s now) t)
    (hfd : job.clientSocketFd ≠ -1) (htexts : UpstreamTexts path hostname)
    (hpart : t <+: upstreamRequest path hostname) (hlf : lf ∈ t)
    (hrun : anything.Run () (parseJob fuel locals table (receiveRequest job s now)) tr () outcome) :
    (NamesHost t ∧ (∀ e ∈ tr, SendsTo (.client job.clientSocketFd) e.1) ∧
      AnswersBadRequest job.clientSocketFd ⟨tr, outcome⟩) ∨
        ¬NamesHost t ∧ tr = [] ∧ outcome = .error .negativeLength := by
  have hnul := htexts.string hpart
  rcases parseText_upstream htexts locals.buffersFit hpart hlf with
    ⟨hnames, ⟨_, out'⟩, hok, rfl, hversion⟩ | ⟨hblank, fault, hbad⟩
  · obtain ⟨left, hparse⟩ := exists_parse_of_parseText
      (List.replicate (jobRequestBufferSize - t.length) 0) hnul hok
    rw [← hholds.request] at hparse
    have hconnected : (receiveRequest job s now).clientSocketFd ≠ -1 := hfd
    have hanswer := run_parseJob_malformed hconnected hparse hversion hrun
    exact .inl ⟨hnames, hanswer⟩
  · have hparse := parse_error_of_parseText
      (List.replicate (jobRequestBufferSize - t.length) 0) hnul hbad
    rw [← hholds.request] at hparse
    obtain ⟨hnothing, hfault⟩ := run_parseJob_faults hparse hrun
    obtain rfl := parseText_upstream_fault htexts locals.buffersFit hpart hlf hbad
    exact .inr ⟨hblank, hnothing, hfault⟩

/-- Without the first line the call waits. -/
theorem Holds.waits_for_line {now : ℕ} (hholds : Holds (receiveRequest job s now) t)
    (htexts : UpstreamTexts path hostname) (hpart : t <+: upstreamRequest path hostname)
    (hlf : lf ∉ t)
    (hrun : anything.Run () (parseJob fuel locals table (receiveRequest job s now)) tr () outcome) :
    tr = [] ∧ outcome = .ok (.enqueue, receiveRequest job s now) := by
  have hline : lf ∉ cstr (receiveRequest job s now).request 0 := by
    rwa [hholds.string (htexts.string hpart)]
  have htail : (receiveRequest job s now).requestTail ≠ jobRequestBufferSize - 1 := by
    rw [hholds.requestTail]
    exact (htexts.length_lt hpart).ne
  rw [parseJob_waits hline htail] at hrun
  obtain ⟨hnothing, -, hout⟩ := run_ret.mp hrun
  exact ⟨hnothing, hout⟩

theorem namesHost_of_notMem (h : lf ∉ t) : NamesHost t := by
  rw [NamesHost, completeLines_of_notMem h]
  exact fun _ ↦ List.not_mem_nil

theorem Holds.notForwarded (hholds : Holds job stream) (hfd : job.clientSocketFd ≠ -1)
    (htexts : UpstreamTexts path hostname)
    (hpipe : stream ++ streamOf tr <+: upstreamRequest path hostname)
    (hrun : anything.Run () (processJob fuel locals table job) tr () outcome) :
    NotForwarded job.clientSocketFd stream ⟨tr, outcome⟩ := by
  cases run_processJob_reads hfd hrun with
  | unread hreads hnothing =>
      have hunsent : bytesSent (.client job.clientSocketFd) tr = [] :=
        bytesSent_of_reads fun e he ↦ (hreads e he).readsClient
      refine ⟨fun e he ↦ .inl (hreads e he), fun _ ↦ ⟨hunsent, ?_⟩, ?_, ?_⟩
      · exact fun hsome ↦ absurd hnothing hsome
      · exact fun _ hsome ↦ absurd hnothing hsome
      · exact fun hsome ↦ absurd hnothing hsome
  | @parsed before after _ chunk now hreads hchunk hfits hparsed =>
      have hheld := hholds.receive hfits now
      have hpart : stream ++ chunk <+: upstreamRequest path hostname := by
        rw [streamOf_append, hchunk, ← List.append_assoc] at hpipe
        exact (List.prefix_append _ _).trans hpipe
      have hreceived (h : streamOf after = []) : streamOf (before ++ after) = chunk := by
        rw [streamOf_append, hchunk, h, List.append_nil]
      have hclient : ∀ e ∈ before, ReadsClient e.1 := fun e he ↦ (hreads e he).readsClient
      by_cases hlf : lf ∈ stream ++ chunk
      · rcases hheld.ends_of_line hfd htexts hpart hlf hparsed with
          ⟨hnames, hto, hanswer⟩ | ⟨hblank, rfl, hfault⟩
        · have hall := hreceived (streamOf_of_sends hto)
          refine ⟨?_, ?_, fun _ _ _ ↦ hanswer.after_reads hclient, ?_⟩
          · intro e he
            exact (List.mem_append.mp he).imp (hreads e) (hto e)
          · rw [hall]
            exact fun hnone ↦ absurd hlf hnone
          · rw [hall]
            exact fun _ hblank ↦ absurd hnames hblank
        · have hall := hreceived rfl
          rw [List.append_nil] at hall ⊢
          refine ⟨fun e he ↦ .inl (hreads e he), ?_, ?_, fun _ _ ↦ hfault⟩
          · rw [hall]
            exact fun hnone ↦ absurd hlf hnone
          · rw [hall]
            exact fun _ _ hnames ↦ absurd hnames hblank
      · obtain ⟨rfl, hwaits⟩ := hheld.waits_for_line htexts hpart hlf hparsed
        have hall := hreceived rfl
        rw [List.append_nil] at hall ⊢
        refine ⟨fun e he ↦ .inl (hreads e he), fun _ ↦ ⟨bytesSent_of_reads hclient, ?_⟩, ?_, ?_⟩
        · exact fun _ ↦ ⟨_, hwaits⟩
        · rw [hall]
          exact fun hline ↦ absurd hline hlf
        · rw [hall]
          exact fun _ hblank ↦ absurd (namesHost_of_notMem hlf) hblank

/-! ## A run that sends a request -/

theorem sendUpstream_leads (path hostname : List UInt8) :
    ∃ k, (trySendInChunks (.server 9) (upstreamRequest path hostname)
      (upstreamRequest path hostname).length).Leads (fun _ ↦ True)
        (.call (.send (.server 9) (upstreamRequest path hostname)) k) := by
  have hpos : 0 < (upstreamRequest path hostname).length := by
    rw [upstreamRequest_length]
    omega
  obtain ⟨c, rest, hbytes⟩ := List.exists_cons_of_length_pos hpos
  rw [trySendInChunks, if_neg (by decide), Int.toNat_natCast, List.take_length, hbytes]
  simp only [List.length_cons, sendLoop, peek_bind, send_bind]
  exact ⟨_, .call trivial .error (.here _)⟩

theorem fetch_leads (grant : Grant) (cacheFile : Option FileHandle) (serverAddress : Address) :
    ∃ k, (fetch fuel job grant cacheFile serverAddress path hostname).Leads (fun _ ↦ True)
      (.call (.send (.server 9) (upstreamRequest path hostname)) k) := by
  obtain ⟨k, hsend⟩ := sendUpstream_leads path hostname
  simp only [fetch, newSocket_bind, connect_bind]
  exact ⟨_, .call trivial (9 : ℤ) (.call trivial true (hsend.bind _))⟩

/-- Some run asks a server for a path with a question mark. -/
theorem exists_upstream {address : Address}
    (hparse : parseRequestString job.request locals.parseOut = .ok (.success, left, out'))
    (hversion : out'.version = .dotOne) (hget : out'.isGet = true)
    (hquery : 63 ∈ cstr out'.path 0) (hclient : job.clientSocketFd ≠ -1)
    (hname : blockTableCheck table (splitHostname (cstr out'.hostname 0)).1 = false)
    (haddress : blockTableCheck table (inetNtop address) = false) :
    ∃ tr outcome, anything.Run () (parseJob fuel locals table job) tr () outcome ∧
      bytesSent (.server 9) tr = upstreamRequest (cstr out'.path 0) (cstr out'.hostname 0) := by
  obtain ⟨k, hfetch⟩ : ∃ k, (handleValidRequest fuel locals.cacheFile { job with request := left }
      address (cstr out'.path 0) (cstr out'.hostname 0)).Leads (fun _ ↦ True) (.call (.send
        (.server 9) (upstreamRequest (cstr out'.path 0) (cstr out'.hostname 0))) k) := by
    rw [handleValidRequest, if_pos hquery, serveGrant, if_neg (by simp [hclient])]
    exact fetch_leads _ _ _
  have hanswer : (answerRequest fuel locals table { job with request := left } out'
      (text "HTTP/1.1 ")).Leads (fun _ ↦ True)
        (.call (.send (.server 9) (upstreamRequest (cstr out'.path 0) (cstr out'.hostname 0))) k >>=
          fun _ ↦ freeaddrinfo [address]) := by
    rw [answerRequest]
    refine ((resolveHost_leads hname haddress).bind _).trans ?_
    rw [Prog.ret_bind, if_neg (by simp [hget])]
    exact hfetch.bind _
  have hjob : (parseJob fuel locals table job).Leads (fun _ ↦ True) ((.call (.send (.server 9)
      (upstreamRequest (cstr out'.path 0) (cstr out'.hostname 0))) k >>=
        fun _ ↦ freeaddrinfo [address]) >>= fun _ ↦
          .ret (.terminate, { job with request := left })) := by
    rw [parseJob, hparse, Prog.lift_ok, Prog.ret_bind, if_neg (by simp), if_neg (by simp), hversion]
    exact hanswer.bind _
  obtain ⟨tr, outcome, hrun, hmem⟩ := exists_run_of_leads hjob
    (some ⟨(upstreamRequest (cstr out'.path 0) (cstr out'.hostname 0)).length, by
      rw [upstreamRequest_length]
      omega, le_rfl⟩)
  refine ⟨tr, outcome, hrun, ?_⟩
  -- All of the request is in what is sent, and nothing else can be.
  have hfront := (parseJob_sendsUpstream hparse ⟨rfl, .inr hversion⟩ 9 tr outcome hrun).1
  obtain ⟨before, after, rfl⟩ := List.append_of_mem hmem
  apply hfront.eq_of_length_le
  have hsent : ∀ bytes h, sentOn (.server 9) ⟨.send (.server 9) bytes, some ⟨bytes.length, h⟩⟩ =
      bytes := by simp [sentOn]
  rw [bytesSent, List.flatMap_append, List.flatMap_cons, hsent]
  simp only [List.length_append]
  omega

/-- A host with a name is named in the host line. -/
theorem UpstreamTexts.namesHost (h : UpstreamTexts path hostname)
    (hname : ∃ c ∈ hostname, c ≠ space) (hs : s <+: upstreamRequest path hostname) :
    NamesHost s := by
  by_cases hlf : lf ∈ s
  · obtain ⟨headers, rfl, hline, hheaders⟩ := exists_headers h hs hlf
    rw [NamesHost, completeLines_append hline]
    intro n hmem
    have hheader := (List.mem_cons.mp hmem).resolve_left (hostLine_ne_upstreamLine _ _)
    have hsame := eq_hostLine_of_mem (hheaders.subset hheader) (hostLine_isHostLine _)
    have hspaces : List.replicate n space = hostname := by simpa [hostLine] using hsame
    obtain ⟨c, hc, hne⟩ := hname
    rw [← hspaces] at hc
    exact hne (List.eq_of_mem_replicate hc)
  · exact namesHost_of_notMem hlf

theorem exists_run_queryRequest : ∃ tr outcome path, UpstreamTexts path (text "a") ∧
    anything.Run () (processJob 0 clearLocals [] (jobConstruct 5)) tr () outcome ∧
      bytesSent (.server 9) tr = upstreamRequest path (text "a") := by
  obtain ⟨left, out, hparse, hget, hversion, hhost, hquery⟩ := exists_parse_queryRequest 100
  have hconnected : (receiveRequest (jobConstruct 5) queryRequest 100).clientSocketFd ≠ -1 :=
    show (5 : ℤ) ≠ -1 by decide
  have hname : blockTableCheck [] (splitHostname (cstr out.hostname 0)).1 = false := rfl
  have haddress : blockTableCheck [] (inetNtop ⟨10, 0, 0, 1, 80⟩) = false := rfl
  obtain ⟨tr, outcome, hrun, hsent⟩ :=
    exists_upstream hparse hversion hget hquery hconnected hname haddress
  have hholds : Holds (receiveRequest (jobConstruct 5) queryRequest 100) queryRequest :=
    (holds_jobConstruct 5).receive (by decide) 100
  rw [hholds.request] at hparse
  have htexts := upstreamTexts_of_accepted (by decide) hparse ⟨rfl, .inr hversion⟩
  rw [hhost] at htexts hsent
  exact ⟨_, outcome, _, htexts,
    run_processJob_new (by decide) (by decide) (by decide) trivial trivial hrun, hsent⟩

/-! ## The two proxies -/

/-- What a call on any job sends to a server is the start of one request, and of it another proxy
forwards nothing: whatever pieces come in, its calls read from the connection, and answer 400
on it. -/
theorem request_forwarded_once {first : Job} {fuel₁ : ℕ} {locals₁ : Locals} {table₁ : BlockTable}
    {tr₁ : Trace} {outcome₁ : Except Fault (JobStatus × Job)} (hend : BufferEnds first)
    (hrun₁ : anything.Run () (processJob fuel₁ locals₁ table₁ first) tr₁ () outcome₁) (fd : ℤ) :
    BeginsRequest (bytesSent (.server fd) tr₁) ∧
      ∀ job stream, clientStream.Reachable (job, stream) → ∀ fuel locals table tr outcome,
        anything.Run () (processJob fuel locals table job) tr () outcome →
          stream ++ streamOf tr <+: bytesSent (.server fd) tr₁ →
            NotForwarded job.clientSocketFd stream ⟨tr, outcome⟩ := by
  have hbegins := run_processJob_upstream fd hend hrun₁
  refine ⟨hbegins, fun job stream hreach fuel locals table tr outcome hrun hpipe ↦ ?_⟩
  obtain ⟨path, hostname, htexts, hsent⟩ := hbegins
  have hholds := holdsStream_reachable hreach
  exact hholds.2.notForwarded hholds.1 htexts (hpipe.trans hsent) hrun

/-- A proxy that has sent itself a request answers it with 400. -/
theorem request_forwarded_once_query : ∃ tr₁ outcome₁ tr outcome,
    anything.Run () (processJob 0 clearLocals [] (jobConstruct 5)) tr₁ () outcome₁ ∧
      anything.Run () (processJob 0 clearLocals [] (jobConstruct 5)) tr () outcome ∧
      streamOf tr = bytesSent (.server 9) tr₁ ∧ AnswersBadRequest 5 ⟨tr, outcome⟩ := by
  obtain ⟨tr₁, outcome₁, path, htexts, hrun₁, hsent⟩ := exists_run_queryRequest
  have hfits : (upstreamRequest path (text "a")).length ≤ jobRequestBufferSize := by
    have hlength := htexts.length_lt List.prefix_rfl
    omega
  have hlf : lf ∈ upstreamRequest path (text "a") := List.mem_append_right _ (by decide)
  have hnames : NamesHost (upstreamRequest path (text "a")) :=
    htexts.namesHost (by decide) List.prefix_rfl
  obtain ⟨after, ⟨⟩, outcome, hparse⟩ := exists_run anything_total (parseJob 0 clearLocals []
    (receiveRequest (jobConstruct 5) (upstreamRequest path (text "a")) 100)) ()
  have hheld : Holds (receiveRequest (jobConstruct 5) (upstreamRequest path (text "a")) 100)
      (upstreamRequest path (text "a")) := (holds_jobConstruct 5).receive hfits 100
  have hquiet : streamOf after = [] := by
    rcases hheld.ends_of_line (by decide) htexts List.prefix_rfl hlf hparse with
      ⟨-, hto, -⟩ | ⟨hblank, -⟩
    · exact streamOf_of_sends hto
    · exact absurd hnames hblank
  obtain ⟨tr, hrun, hstream⟩ : ∃ tr,
      anything.Run () (processJob 0 clearLocals [] (jobConstruct 5)) tr () outcome ∧
        streamOf tr = upstreamRequest path (text "a") := by
    refine ⟨_, run_processJob_new (by decide) (List.ne_nil_of_mem hlf) hfits trivial trivial hparse,
      ?_⟩
    rw [streamOf] at hquiet ⊢
    rw [List.flatMap_cons, List.flatMap_cons, hquiet]
    simp [fromClient, RecvResult.bytes]
  have hreach : clientStream.Reachable (jobConstruct 5, []) := .init ⟨⟨5, by decide, rfl⟩, rfl⟩
  have hpipe : [] ++ streamOf tr <+: bytesSent (.server 9) tr₁ := by
    rw [hstream, hsent]
    exact List.prefix_rfl
  have hends := (request_forwarded_once (holds_jobConstruct 5).bufferEnds hrun₁ 9).2 _ _ hreach
    _ _ _ _ _ hrun hpipe
  refine ⟨tr₁, outcome₁, tr, outcome, hrun₁, hrun, hstream.trans hsent.symm, ?_⟩
  apply hends.answered
  · rwa [hstream]
  · rw [hstream]
    exact List.ne_nil_of_mem hlf
  · rwa [hstream]

end HttpProxy
