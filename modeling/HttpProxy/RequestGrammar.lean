import HttpProxy.AbsoluteRequest

/-!
# The language of the request parser

The first lines that are accepted, and the requests that come back as they were written.
-/

namespace HttpProxy

open CString Fallible

/-- The methods the proxy knows. -/
def methods : List String :=
  ["GET", "HEAD", "POST", "PUT", "DELETE", "CONNECT", "TRACE", "PATCH", "OPTIONS"]

/-- The versions the proxy knows, as they are written. -/
def versions : List (String × HttpVersion) :=
  [("HTTP/1.0", .dotZero), ("HTTP/1.1", .dotOne)]

variable {line l r t rest left : List UInt8} {command : String} {out out' : ParseOut}

/-! ## Words of the first line -/

theorem matchesCommand_iff : matchesCommand line command = true ↔ text command <+: line :=
  strncmpEq_iff

/-- A word without spaces is found in front of the line if it is found in front of its first
word. -/
theorem matchesCommand_append_space (hspace : space ∉ text command) :
    matchesCommand (l ++ space :: r) command = matchesCommand l command := by
  rw [Bool.eq_iff_iff, matchesCommand_iff, matchesCommand_iff, prefix_append_cons_iff hspace]

theorem requestMethod_append_space (l r : List UInt8) :
    requestMethod (l ++ space :: r) = requestMethod l := by
  unfold requestMethod
  repeat rw [matchesCommand_append_space (by decide)]

theorem ite_eq_map_find? {α β : Type*} {p : α → Bool} {f : α → β} {a : α} {as : List α} {b : β}
    {rest : Option β} (ha : f a = b) (has : rest = (as.find? p).map f) :
    (if p a = true then some b else rest) = ((a :: as).find? p).map f := by
  split
  next h => rw [List.find?_cons_of_pos h, Option.map_some, ha]
  next h => rw [List.find?_cons_of_neg h, has]

/-- The first known method that the line starts with decides. -/
theorem requestMethod_eq (line : List UInt8) :
    requestMethod line = (methods.find? (matchesCommand line ·)).map (· == "GET") := by
  unfold requestMethod methods
  iterate 9 apply ite_eq_map_find? (by decide)
  rfl

theorem requestMethod_some {isGet : Bool} (h : requestMethod line = some isGet) :
    (∃ name ∈ methods, text name <+: line) ∧ (isGet = true ↔ text "GET" <+: line) := by
  rw [requestMethod_eq] at h
  obtain ⟨name, hfind, rfl⟩ := Option.map_eq_some_iff.mp h
  have hmatch : matchesCommand line name = true := by simpa using List.find?_some hfind
  refine ⟨⟨name, List.mem_of_find?_eq_some hfind, matchesCommand_iff.mp hmatch⟩, ?_⟩
  rw [beq_iff_eq, ← matchesCommand_iff]
  constructor
  · rintro rfl
    exact hmatch
  · intro hget
    rw [methods, List.find?_cons_of_pos hget] at hfind
    exact (Option.some.inj hfind).symm

theorem requestMethod_text {name : String} (h : name ∈ methods) :
    requestMethod (text name) = some (name == "GET") := by
  have hall :
      methods.all (fun name ↦ requestMethod (text name) == some (name == "GET")) = true := by
    decide
  exact beq_iff_eq.mp (List.all_eq_true.mp hall name h)

theorem requestVersion_some {token : List UInt8}
    (h : requestVersion token = .dotZero ∨ requestVersion token = .dotOne) :
    ∃ v ∈ versions, v.2 = requestVersion token ∧ text v.1 <+: token := by
  simp only [← matchesCommand_iff]
  unfold requestVersion at h ⊢
  split at h
  next => simp at h
  next hhttp =>
    rw [if_neg hhttp]
    split at h
    next hone =>
      rw [if_pos hone]
      exact ⟨("HTTP/1.1", .dotOne), by decide, rfl, hone⟩
    next hone =>
      rw [if_neg hone]
      split at h
      next hzero =>
        rw [if_pos hzero]
        exact ⟨("HTTP/1.0", .dotZero), by decide, rfl, hzero⟩
      next => simp at h

theorem requestVersion_text {v : String × HttpVersion} (h : v ∈ versions) :
    requestVersion (text v.1 ++ [cr]) = v.2 := by
  have hall : versions.all (fun v ↦ requestVersion (text v.1 ++ [cr]) == v.2) = true := by decide
  exact beq_iff_eq.mp (List.all_eq_true.mp hall v h)

/-! ## The accepted first lines -/

/-- The first line starts with a known method, ends with a word that starts with the version,
and the method says whether the request is a GET. -/
structure AbsoluteRequest.Announces (r : AbsoluteRequest) (version : HttpVersion) (isGet : Bool) :
    Prop where
  method : ∃ name ∈ methods, text name <+: r.method
  isGet : isGet = true ↔ text "GET" <+: r.method
  version : ∃ v ∈ versions, v.2 = version ∧ text v.1 <+: r.version

/-- An accepted request has the parts of one for an absolute url, with a method and a version
that start as they must. -/
theorem accepted_announces (ht : 0 ∉ t)
    (h : parseRequestString (t ++ 0 :: rest) out = .ok (.success, left, out'))
    (hversion : out'.version = .dotZero ∨ out'.version = .dotOne) :
    ∃ r : AbsoluteRequest, t = r.bytes ∧ r.Announces out'.version out'.isGet := by
  have hparse := parseText_of_parse ht h
  obtain ⟨r, isGet, rfl, hmethod, hgood⟩ := exists_absoluteRequest hparse hversion
  obtain ⟨-, hread, hget⟩ := r.flags hgood hmethod hparse
  rw [AbsoluteRequest.line, requestMethod_append_space] at hget
  obtain ⟨hname, hisGet⟩ := requestMethod_some hget
  rw [hread]
  exact ⟨r, rfl, hname, hisGet, requestVersion_some hgood⟩

/-- A request whose version has a tab behind it. -/
def tabRequest : AbsoluteRequest :=
  httpRequest (text "GET") (text "a") (text "/b c") (text "HTTP/1.0\t") [] (by decide)

theorem accepted_announces_of_tab :
    0 ∉ tabRequest.bytes ∧ ∃ r : AbsoluteRequest,
      tabRequest.bytes = r.bytes ∧ r.Announces .dotZero true := by
  have hnul : 0 ∉ tabRequest.bytes := by decide
  have hmethod : requestMethod tabRequest.line = some true := by decide
  have hversion : requestVersion tabRequest.version = .dotZero := by decide
  obtain ⟨left, out', hparse, hleaves⟩ := tabRequest.exists_parseRequest (.inl hversion) hmethod
    emptyParseOut_fits (by decide) (by simp [tabRequest, httpRequest, completeLines]) hnul []
  have hread := hleaves.version.trans hversion
  have hget := hmethod.symm.trans hleaves.isGet
  have h := accepted_announces hnul hparse (.inl hread)
  rw [hread, ← Option.some.inj hget] at h
  exact ⟨hnul, h⟩

/-- The words of the first line and the host are what they should be, and nothing more. -/
structure AbsoluteRequest.Exact (r : AbsoluteRequest) (version : HttpVersion) (isGet : Bool) :
    Prop where
  method : ∃ name ∈ methods, r.method = text name
  isGet : isGet = true ↔ r.method = text "GET"
  host : r.host ≠ []
  version : ∃ v ∈ versions, v.2 = version ∧ (r.version = text v.1 ∨ r.version = text v.1 ++ [cr])

/-- The parser accepts the request, although its words or its host are not what they should
be. -/
def AcceptedInexact (r : AbsoluteRequest) : Prop :=
  (∃ left out', parseRequestString (r.bytes ++ 0 :: []) emptyParseOut =
      .ok (.success, left, out') ∧ out'.version = .dotOne) ∧
    ¬∃ (r' : AbsoluteRequest) (version : HttpVersion) (isGet : Bool),
      r.bytes = r'.bytes ∧ r'.Exact version isGet

/-- A longer word than a method. -/
def longMethodRequest : AbsoluteRequest :=
  httpRequest (text "GETX") (text "a") (text "/") (text "HTTP/1.1") [] (by decide)

def noHostRequest : AbsoluteRequest :=
  httpRequest (text "GET") [] (text "/") (text "HTTP/1.1") [] (by decide)

/-- A longer word than a version. -/
def longVersionRequest : AbsoluteRequest :=
  httpRequest (text "GET") (text "a") (text "/") (text "HTTP/1.1zz") [] (by decide)

theorem oddRequests_accepted : AcceptedInexact longMethodRequest ∧
    AcceptedInexact noHostRequest ∧ AcceptedInexact longVersionRequest := by
  have haccepted {r : AbsoluteRequest} (hmethod : requestMethod r.line = some true)
      (hversion : requestVersion r.version = .dotOne) (hhost : r.host.length ≤ maxNameLength)
      (hlines : completeLines r.headers = []) (hnul : 0 ∉ r.bytes) :
      ∃ left out', parseRequestString (r.bytes ++ 0 :: []) emptyParseOut =
        .ok (.success, left, out') ∧ out'.version = .dotOne := by
    obtain ⟨left, out', hparse, hleaves⟩ := r.exists_parseRequest (.inr hversion) hmethod
      emptyParseOut_fits hhost (by simp [hlines]) hnul []
    exact ⟨left, out', hparse, hleaves.version.trans hversion⟩
  refine ⟨⟨?_, ?_⟩, ⟨?_, ?_⟩, ?_, ?_⟩
  · exact haccepted (by decide) (by decide) (by decide) rfl (by decide)
  · rintro ⟨r', version, isGet, hbytes, hexact⟩
    obtain ⟨-, hmethod, -⟩ := AbsoluteRequest.parts_unique hbytes
    obtain ⟨name, hname, heq⟩ := hexact.method
    have hall : (methods.all fun name ↦ longMethodRequest.method != text name) = true := by decide
    have hne := List.all_eq_true.mp hall name hname
    simp [hmethod, heq] at hne
  · exact haccepted (by decide) (by decide) (by decide) rfl (by decide)
  · rintro ⟨r', version, isGet, hbytes, hexact⟩
    obtain ⟨-, -, hhost, -⟩ := AbsoluteRequest.parts_unique hbytes
    exact hexact.host hhost.symm
  · exact haccepted (by decide) (by decide) (by decide) rfl (by decide)
  · rintro ⟨r', version, isGet, hbytes, hexact⟩
    obtain ⟨-, -, -, htoken⟩ := AbsoluteRequest.parts_unique hbytes
    obtain ⟨v, hv, -, heq⟩ := hexact.version
    have hall : (versions.all fun v ↦ longVersionRequest.version != text v.1 &&
        longVersionRequest.version != text v.1 ++ [cr]) = true := by decide
    have hne := List.all_eq_true.mp hall v hv
    rcases heq with heq | heq <;> simp [htoken, heq] at hne

/-! ## Requests that come back as they were written -/

/-- A request line for an absolute url and header lines other than `Host`, as a client writes
them. -/
structure PlainRequest where
  method : String
  host : List UInt8
  path : List UInt8
  version : String × HttpVersion
  headers : List (List UInt8)
  method_mem : method ∈ methods
  host_pos : host ≠ []
  host_le : host.length ≤ maxNameLength
  host_bytes : 0 ∉ host ∧ lf ∉ host ∧ space ∉ host ∧ 47 ∉ host
  path_slash : path.head? = some 47
  path_le : path.length ≤ maxUrlSize
  path_bytes : 0 ∉ path ∧ lf ∉ path
  version_mem : version ∈ versions
  headers_bytes : ∀ line ∈ headers, 0 ∉ line ∧ lf ∉ line
  headers_host : ∀ line ∈ headers, ¬IsHostLine line

namespace PlainRequest

variable (p : PlainRequest)

def bytes : List UInt8 :=
  text p.method ++ text " http://" ++ p.host ++ p.path ++ text " " ++ text p.version.1 ++ crlf ++
    p.headers.flatMap (· ++ crlf)

end PlainRequest

theorem text_notMem {name : String} (h : name ∈ methods) :
    space ∉ text name ∧ lf ∉ text name ∧ 0 ∉ text name := by
  have hall : methods.all (fun name ↦
      decide (space ∉ text name ∧ lf ∉ text name ∧ 0 ∉ text name)) = true := by decide
  exact of_decide_eq_true (List.all_eq_true.mp hall name h)

theorem version_notMem {v : String × HttpVersion} (h : v ∈ versions) :
    space ∉ text v.1 ++ [cr] ∧ lf ∉ text v.1 ++ [cr] ∧ 0 ∉ text v.1 ++ [cr] := by
  have hall : versions.all (fun v ↦
      decide (space ∉ text v.1 ++ [cr] ∧ lf ∉ text v.1 ++ [cr] ∧ 0 ∉ text v.1 ++ [cr])) = true := by
    decide
  exact of_decide_eq_true (List.all_eq_true.mp hall v h)

theorem isHostLine_append_cr : IsHostLine (line ++ [cr]) ↔ IsHostLine line := by
  rw [IsHostLine, matchesCommandCaseInsensitive, strncasecmpEq_append_cons (by decide)]
  rfl

theorem isKeepAlive_append_cr : IsKeepAlive (line ++ [cr]) ↔ IsKeepAlive line := by
  rw [IsKeepAlive, matchesCommandCaseInsensitive, strncasecmpEq_append_cons (by decide)]
  rfl

theorem PlainRequest.httpParts (p : PlainRequest) :
    HttpParts (text p.method) p.host p.path (text p.version.1 ++ [cr]) := by
  obtain ⟨hmethodSpace, hmethodLf, -⟩ := text_notMem p.method_mem
  obtain ⟨hversionSpace, hversionLf, -⟩ := version_notMem p.version_mem
  obtain ⟨-, hhostLf, -, hhostSlash⟩ := p.host_bytes
  refine ⟨hmethodSpace, hhostSlash, p.path_slash, hversionSpace, ?_⟩
  rw [List.mem_append, List.mem_append, List.mem_append]
  exact not_or.mpr ⟨not_or.mpr ⟨not_or.mpr ⟨hmethodLf, hhostLf⟩, p.path_bytes.2⟩, hversionLf⟩

/-- The parts of a plain request. -/
def PlainRequest.parts (p : PlainRequest) : AbsoluteRequest :=
  httpRequest (text p.method) p.host p.path (text p.version.1 ++ [cr])
    (p.headers.flatMap (· ++ crlf)) p.httpParts

theorem PlainRequest.parts_bytes (p : PlainRequest) : p.parts.bytes = p.bytes := by
  have hstart : text " http://" = space :: text "http://" := by decide
  have hspace : text " " = [space] := by decide
  have hend : crlf = [cr, lf] := by decide
  simp [AbsoluteRequest.bytes, AbsoluteRequest.line, AbsoluteRequest.url, parts, httpRequest,
    bytes, hstart, hspace, hend]

theorem PlainRequest.bytes_notMem (p : PlainRequest) : 0 ∉ p.bytes := by
  have hheaders : 0 ∉ p.headers.flatMap (· ++ crlf) := by
    rw [List.mem_flatMap]
    rintro ⟨line, hline, hmem⟩
    rcases List.mem_append.mp hmem with h | h
    · exact (p.headers_bytes line hline).1 h
    · exact absurd h (by decide)
  have hversion := (version_notMem p.version_mem).2.2
  have hwords : 0 ∉ text " http://" ∧ 0 ∉ text " " ∧ 0 ∉ crlf := by decide
  rw [List.mem_append, not_or] at hversion
  simp only [bytes, List.mem_append, not_or]
  exact ⟨⟨⟨⟨⟨⟨⟨(text_notMem p.method_mem).2.2, hwords.1⟩, p.host_bytes.1⟩, p.path_bytes.1⟩,
    hwords.2.1⟩, hversion.1⟩, hwords.2.2⟩, hheaders⟩

theorem PlainRequest.completeLines_parts (p : PlainRequest) :
    completeLines p.parts.headers = p.headers.map (· ++ [cr]) :=
  completeLines_flatMap fun line hline ↦ (p.headers_bytes line hline).2

/-- A plain request is parsed back to what was written, except for the last slash of its
path. -/
theorem parse_plainRequest (p : PlainRequest) (rest : List UInt8)
    (hhost : out.hostname = List.replicate (maxNameLength + 1) 0)
    (hpath : out.path = List.replicate (maxUrlSize + 1) 0) :
    ∃ left out', parseRequestString (p.bytes ++ 0 :: rest) out = .ok (.success, left, out') ∧
      out'.version = p.version.2 ∧ (out'.isGet = true ↔ p.method = "GET") ∧
        cstr out'.hostname 0 = p.host ∧ cstr out'.path 0 = withoutLastSlash p.path ∧
          (out'.proxyKeepAlive = true ↔ ∃ line ∈ p.headers, IsKeepAlive line) := by
  have hversion : requestVersion p.parts.version = p.version.2 := requestVersion_text p.version_mem
  have hgood : p.version.2 = .dotZero ∨ p.version.2 = .dotOne := by
    have hmem := p.version_mem
    simp only [versions, List.mem_cons, List.not_mem_nil, or_false] at hmem
    rcases hmem with h | h
    · exact .inl (by rw [h])
    · exact .inr (by rw [h])
  have hmethod : requestMethod p.parts.line = some (p.method == "GET") :=
    (requestMethod_append_space _ _).trans (requestMethod_text p.method_mem)
  have hother : ∀ line ∈ completeLines p.parts.headers, ¬IsHostLine line := by
    rw [p.completeLines_parts]
    intro line hline
    obtain ⟨line, hmem, rfl⟩ := List.mem_map.mp hline
    rw [isHostLine_append_cr]
    exact p.headers_host line hmem
  have hnul : 0 ∉ p.parts.bytes := p.parts_bytes ▸ p.bytes_notMem
  obtain ⟨left, out', hparse, hleaves⟩ := p.parts.exists_parseRequest (hversion ▸ hgood) hmethod
    (buffersFit_of_zeroed hhost hpath) p.host_le (fun line hline h ↦ absurd h (hother line hline))
    hnul rest
  rw [p.parts_bytes] at hparse
  refine ⟨left, out', hparse, hleaves.version.trans hversion, ?_, ?_, ?_, ?_⟩
  · have hget := hmethod.symm.trans hleaves.isGet
    rw [← Option.some.inj hget, beq_iff_eq]
  · exact hleaves.host_of_url hhost p.host_bytes.1 hother
  · rw [hleaves.path]
    exact congrArg withoutLastSlash (List.take_of_length_le p.path_le)
  · rw [hleaves.keepAlive, p.completeLines_parts]
    simp only [List.mem_map, exists_exists_and_eq_and, isKeepAlive_append_cr]

def putRequest : PlainRequest where
  method := "PUT"
  host := text "a:81"
  path := text "/b c/"
  version := ("HTTP/1.1", .dotOne)
  headers := [text "Accept: *", text "proxy-connection: Keep-Alive, x"]
  method_mem := by decide
  host_pos := by decide
  host_le := by decide
  host_bytes := by decide
  path_slash := by decide
  path_le := by decide
  path_bytes := by decide
  version_mem := by decide
  headers_bytes := by decide
  headers_host := by decide

theorem parse_putRequest :
    ∃ left out', parseRequestString (putRequest.bytes ++ 0 :: []) emptyParseOut =
      .ok (.success, left, out') ∧ out'.version = .dotOne ∧ out'.isGet = false ∧
        cstr out'.hostname 0 = text "a:81" ∧ cstr out'.path 0 = text "/b c" ∧
          out'.proxyKeepAlive = true := by
  have hhost : emptyParseOut.hostname = List.replicate (maxNameLength + 1) 0 := rfl
  obtain ⟨left, out', hparse, hversion, hget, hhost, hpath, hkeep⟩ :=
    parse_plainRequest putRequest [] hhost rfl
  have hput : ¬out'.isGet = true := hget.not.mpr (by decide)
  have hline : IsKeepAlive (text "proxy-connection: Keep-Alive, x") := by
    unfold IsKeepAlive
    decide
  exact ⟨left, out', hparse, hversion, Bool.eq_false_iff.mpr hput, hhost,
    hpath.trans (by decide), hkeep.mpr ⟨_, by simp [putRequest], hline⟩⟩

end HttpProxy
