import Mathlib.Data.List.GetD
import HttpProxy.HeaderLines

/-!
# Requests for an absolute url

The parts of a request that `parse_request_string` accepts, and what it makes of them.  A
request is accepted exactly if it has such parts, a method and a version the parser knows,
and texts that fit.
-/

namespace HttpProxy

open CString Fallible

/-- The path that is looked up and sent on: without its last byte if that is a slash. -/
def withoutLastSlash (path : List UInt8) : List UInt8 :=
  if path ≠ [47] ∧ path.getLast? = some 47 then path.dropLast else path

/-- The status with which the parser returns and the variables it leaves let the request be
served. -/
def Accepted (status : Status) (out : ParseOut) : Prop :=
  status = .success ∧ (out.version = .dotZero ∨ out.version = .dotOne)

/-- A first line with an absolute url, and what follows it.  The url may have spaces in it,
for the parser looks for the first and for the last space. -/
structure AbsoluteRequest where
  method : List UInt8
  scheme : List UInt8
  host : List UInt8
  path : List UInt8
  version : List UInt8
  headers : List UInt8
  method_space : space ∉ method
  scheme_http : scheme.map toLower = text "http://"
  host_slash : 47 ∉ host
  path_slash : path.head? = some 47
  version_space : space ∉ version
  line_lf : lf ∉ method ++ space :: (scheme ++ host ++ path ++ space :: version)

namespace AbsoluteRequest

variable (r : AbsoluteRequest)

def url : List UInt8 := r.scheme ++ r.host ++ r.path

def line : List UInt8 := r.method ++ space :: (r.url ++ space :: r.version)

def bytes : List UInt8 := r.line ++ lf :: r.headers

/-- The bytes of the host buffer after the url has been copied over `stale`. -/
def copiedHost (stale : List UInt8) : ℕ → UInt8 := fun i ↦
  if i < r.host.length then r.host.getD i 0
  else if i = r.host.length then 0 else stale.getD i 0

/-- The variables of the caller after the request has been accepted. -/
structure Leaves (out out' : ParseOut) : Prop where
  version : out'.version = requestVersion r.version
  isGet : requestMethod r.line = some out'.isGet
  host : (out'.hostname.getD · 0) =
    (completeLines r.headers).foldl overwriteHost (r.copiedHost out.hostname)
  path : cstr out'.path 0 = withoutLastSlash (r.path.take maxUrlSize)
  keepAlive : out'.proxyKeepAlive = true ↔ ∃ line ∈ completeLines r.headers, IsKeepAlive line

end AbsoluteRequest

variable {t path : List UInt8} {out out' : ParseOut} {status : Status}

theorem buffersFit_of_zeroed (hhost : out.hostname = List.replicate (maxNameLength + 1) 0)
    (hpath : out.path = List.replicate (maxUrlSize + 1) 0) : BuffersFit out :=
  ⟨by simp [hhost], by simp [hhost], by simp [hpath]⟩

theorem emptyParseOut_fits : BuffersFit emptyParseOut := buffersFit_of_zeroed rfl rfl

theorem BuffersFit.hostname_string (h : BuffersFit out) :
    (cstr out.hostname 0).length ≤ maxNameLength := by
  obtain ⟨front, back, hsplit, hfront⟩ := List.eq_append_cons_of_mem h.hostname_terminated
  have hlength := h.hostname_length
  rw [hsplit, List.length_append, List.length_cons] at hlength
  rw [hsplit, cstr_append_nul hfront]
  omega

/-! ## The last slash -/

theorem withoutLastSlash_append_slash (h : path ≠ []) :
    withoutLastSlash (path ++ [47]) = path := by
  have hlong : path ++ [47] ≠ [47] := by simpa using h
  rw [withoutLastSlash, if_pos ⟨hlong, by simp⟩, List.dropLast_concat]

theorem withoutLastSlash_of_getLast (h : path.getLast? ≠ some 47) :
    withoutLastSlash path = path :=
  if_neg fun hslash ↦ h hslash.2

theorem withoutLastSlash_cases (path : List UInt8) :
    path = withoutLastSlash path ∨ path = withoutLastSlash path ++ [47] := by
  unfold withoutLastSlash
  split
  next h =>
    obtain ⟨front, rfl⟩ := List.getLast?_eq_some_iff.mp h.2
    exact .inr (by rw [List.dropLast_concat])
  next => exact .inl rfl

theorem withoutLastSlash_isPrefix (path : List UInt8) : withoutLastSlash path <+: path := by
  rcases withoutLastSlash_cases path with h | h
  · exact ⟨[], by rw [List.append_nil, ← h]⟩
  · exact ⟨_, h.symm⟩

/-- On a buffer with a terminated path the parser strips the last slash of the path. -/
theorem stripLastSlash_ok (rest : List UInt8) (hnul : 0 ∉ path) (hslash : 47 ∈ path) :
    ∃ path', stripLastSlash (path ++ 0 :: rest) = .ok path' ∧
      cstr path' 0 = withoutLastSlash path := by
  have hstring : cstr (path ++ 0 :: rest) 0 = path := cstr_append_nul hnul rest
  obtain ⟨slash, hslash⟩ := exists_lastIdxOf? hslash
  obtain ⟨front, back, rfl, hback, rfl⟩ := split_of_lastIdxOf? hslash
  have hsearch : strrchr (front ++ 47 :: back ++ 0 :: rest) 0 47 = some (0 + front.length) := by
    rw [strrchr_of_ne_zero (by decide), hstring, hslash]
    rfl
  have hend : strrchr (front ++ 47 :: back ++ 0 :: rest) 0 0 =
      some (0 + (front ++ 47 :: back).length) := by
    rw [strrchr, if_pos rfl, strlen, hstring]
  unfold stripLastSlash
  simp only [hsearch, hend, Nat.zero_add, List.length_append, List.length_cons]
  cases back with
  | nil =>
      rcases eq_or_ne front [] with rfl | hne
      · exact ⟨_, if_neg (by simp), hstring⟩
      · have hlong : front.length ≠ 0 := by simpa using hne
        refine ⟨_, if_pos ⟨hlong, by simp⟩, ?_⟩
        have hfront : 0 ∉ front := fun h ↦ hnul (by simp [h])
        have hset : (front ++ [47] ++ 0 :: rest).set front.length 0 =
            front ++ 0 :: (0 :: rest) := by
          simp
        rw [hset, cstr_append_nul hfront, withoutLastSlash_append_slash hne]
  | cons c back =>
      refine ⟨_, if_neg (by simp), ?_⟩
      rw [hstring, withoutLastSlash_of_getLast]
      intro hlast
      have hmem := List.mem_of_getLast? (l := c :: back) (a := 47) (by simpa using hlast)
      exact hback hmem

/-- A path that fits is copied whole, and its last slash is stripped. -/
theorem copyPath_ok {buffer : List UInt8} (hlast : buffer.drop maxUrlSize = [0])
    (hnul : 0 ∉ path) (hslash : path.head? = some 47) :
    ∃ path', (copyChecked buffer path maxUrlSize >>= stripLastSlash) = .ok path' ∧
      path'.drop maxUrlSize = [0] ∧ cstr path' 0 = withoutLastSlash (path.take maxUrlSize) := by
  obtain ⟨rest, rfl⟩ := List.head?_eq_some_iff.mp hslash
  have hmem : 47 ∈ (47 :: rest).take maxUrlSize := by
    rw [maxUrlSize, List.take_succ_cons]
    exact List.mem_cons_self
  have hstring : 0 ∉ (47 :: rest).take maxUrlSize := fun h ↦ hnul (List.mem_of_mem_take h)
  rcases copyPath_decides hlast with ⟨-, path', hok, hend⟩ | ⟨hfalse, -⟩
  · refine ⟨path', hok, hend, ?_⟩
    obtain ⟨copied, hcopied, hstrip⟩ := bind_eq_ok.mp hok
    rcases copyChecked_decides buffer (47 :: rest) maxUrlSize with
      ⟨-, copied', hok', rfl, -⟩ | ⟨-, fault, hbad⟩
    · obtain rfl := Except.ok.inj (hcopied.symm.trans hok')
      obtain ⟨zeros, hzeros⟩ : ∃ zeros, strncpy buffer (47 :: rest) (maxUrlSize : ℤ).toNat =
          (47 :: rest).take maxUrlSize ++ 0 :: zeros := by
        rw [Int.toNat_natCast, strncpy, hlast]
        cases maxUrlSize - (47 :: rest).length with
        | zero => exact ⟨[], by simp⟩
        | succ n => exact ⟨_, by rw [List.replicate_succ, List.append_assoc, List.cons_append]⟩
      obtain ⟨stripped, hstripped, hresult⟩ := stripLastSlash_ok zeros hstring hmem
      rw [hzeros, hstripped] at hstrip
      rw [← Except.ok.inj hstrip, hresult]
    · rw [hbad] at hcopied
      cases hcopied
  · exact absurd trivial hfalse

/-! ## Parsing the parts -/

theorem http_lower : (text "http://").map toLower = text "http://" := by decide

theorem matchesHttp_iff {url : List UInt8} :
    matchesCommandCaseInsensitive url "http://" = true ↔
      (url.take 7).map toLower = text "http://" := by
  have hlength : (text "http://").length = 7 := rfl
  rw [matchesCommandCaseInsensitive, strncasecmpEq_iff, http_lower, List.prefix_iff_eq_take,
    hlength, List.map_take, eq_comm]

/-- Parts of a first line that are put together to a request for an absolute url. -/
def HttpParts (method host path version : List UInt8) : Prop :=
  space ∉ method ∧ 47 ∉ host ∧ path.head? = some 47 ∧ space ∉ version ∧
    lf ∉ method ++ host ++ path ++ version

instance (method host path version : List UInt8) :
    Decidable (HttpParts method host path version) :=
  inferInstanceAs (Decidable (_ ∧ _))

def httpRequest (method host path version headers : List UInt8)
    (h : HttpParts method host path version) : AbsoluteRequest where
  method := method
  scheme := text "http://"
  host := host
  path := path
  version := version
  headers := headers
  method_space := h.1
  scheme_http := http_lower
  host_slash := h.2.1
  path_slash := h.2.2.1
  version_space := h.2.2.2.1
  line_lf := by
    have hscheme : lf ∉ text "http://" := by decide
    have hspace : lf ≠ space := by decide
    have hparts := h.2.2.2.2
    simp only [List.mem_append, List.mem_cons, not_or] at hparts ⊢
    exact ⟨hparts.1.1.1, hspace, ⟨⟨hscheme, hparts.1.1.2⟩, hparts.1.2⟩, hspace, hparts.2⟩

namespace AbsoluteRequest

variable (r : AbsoluteRequest)

theorem scheme_length : r.scheme.length = 7 := by
  have hlength : (text "http://").length = 7 := rfl
  rw [← hlength, ← r.scheme_http, List.length_map]

theorem url_http : matchesCommandCaseInsensitive r.url "http://" = true := by
  rw [matchesHttp_iff, url, List.append_assoc, List.take_left' r.scheme_length]
  exact r.scheme_http

theorem url_drop : r.url.drop 7 = r.host ++ r.path := by
  rw [url, List.append_assoc, List.drop_left' r.scheme_length]

theorem url_ne_nil : r.url ≠ [] := by
  intro h
  have hlength := r.scheme_length
  simp only [url, List.append_eq_nil_iff] at h
  simp [h.1.1] at hlength

theorem line_notMem : lf ∉ r.line := by
  have h := r.line_lf
  simp only [line, url, List.append_assoc] at h ⊢
  exact h

theorem line_subset : r.line ⊆ r.bytes := List.subset_append_left _ _

theorem headers_subset : r.headers ⊆ r.bytes :=
  fun _ h ↦ List.mem_append_right _ (List.mem_cons_of_mem _ h)

theorem host_subset : r.host ⊆ r.line := fun _ h ↦ by simp [line, url, h]

theorem path_subset : r.path ⊆ r.line := fun _ h ↦ by simp [line, url, h]

theorem copiedHost_eq (stale : List UInt8) (i : ℕ) :
    r.copiedHost stale i = (r.host ++ 0 :: stale.drop (r.host.length + 1)).getD i 0 := by
  rw [copiedHost]
  split
  next hlt => rw [List.getD_append _ _ _ _ hlt]
  next hge =>
    rw [List.getD_append_right _ _ _ _ (by omega)]
    split
    next heq => simp [heq]
    next hne =>
      obtain ⟨n, rfl⟩ : ∃ n, i = r.host.length + 1 + n := ⟨i - r.host.length - 1, by omega⟩
      have hindex : r.host.length + 1 + n - r.host.length = n + 1 := by omega
      simp [hindex, List.getD_eq_getElem?_getD]

/-- Over a cleared buffer the host is copied as it is. -/
theorem copiedHost_zeroed {stale : List UInt8}
    (hzero : stale = List.replicate (maxNameLength + 1) 0) :
    r.copiedHost stale = (r.host.getD · 0) := by
  funext i
  rw [copiedHost, hzero, cleared_getD, ite_self]
  split
  next => rfl
  next hge => simp [Nat.le_of_not_lt hge]

/-- The url is copied in two parts. -/
theorem applyUrl_eq (out : ParseOut) : applyUrl r.url out = (do
    let hostname ← copyName out.hostname (r.host ++ r.path) r.host.length r.host.length
    let path ← copyChecked out.path r.path maxUrlSize >>= stripLastSlash
    .ok { out with hostname := hostname, path := path }) := by
  obtain ⟨rest, hpath⟩ := List.head?_eq_some_iff.mp r.path_slash
  have hsearch : (r.url.drop 7).idxOf? 47 = some r.host.length := by
    rw [r.url_drop, hpath, idxOf?_append_cons r.host_slash]
  have hdrop : (r.url.drop 7).drop r.host.length = r.path := by rw [r.url_drop, List.drop_left]
  unfold applyUrl
  rw [if_neg (by simp [r.url_http]), hsearch]
  simp only [hdrop]
  simp only [r.url_drop, bind_assoc]

/-- With a version and a method the parser knows, the url and the header lines are read. -/
theorem parseText_eq {isGet : Bool}
    (hversion : requestVersion r.version = .dotZero ∨ requestVersion r.version = .dotOne)
    (hmethod : requestMethod r.line = some isGet) (out : ParseOut) :
    parseText r.bytes out = (do
      let out ← applyUrl r.url { out with version := requestVersion r.version, isGet := isGet }
      let out ← (completeLines r.headers).foldlM headerLine { out with proxyKeepAlive := false }
      .ok (.success, out)) := by
  have hsplit : r.line = (r.method ++ space :: r.url) ++ space :: r.version := by simp [line]
  have hlast : lastIdxOf? r.line space = some (r.method ++ space :: r.url).length := by
    rw [hsplit, lastIdxOf?_append_cons r.version_space]
  have hfirst : r.line.idxOf? space = some r.method.length := by
    rw [line, idxOf?_append_cons r.method_space]
  have hdrop : r.line.drop ((r.method ++ space :: r.url).length + 1) = r.version := by
    rw [hsplit, ← List.drop_drop, List.drop_left, List.drop_one, List.tail_cons]
  have hurl : (r.line.take (r.method ++ space :: r.url).length).drop (r.method.length + 1) =
      r.url := by
    rw [hsplit, List.take_left, ← List.drop_drop, List.drop_left, List.drop_one, List.tail_cons]
  have hgood : ¬(requestVersion r.version = .malformed ∨
      requestVersion r.version = .notSupported) := by
    rcases hversion with h | h <;> simp [h]
  have hlong : ¬r.method.length + 1 ≥ (r.method ++ space :: r.url).length := by
    have hpos := List.length_pos_iff.mpr r.url_ne_nil
    simp only [List.length_append, List.length_cons]
    omega
  rw [bytes, parseText_line _ r.line_notMem]
  simp only [parseLineText, hlast, hdrop, if_neg hgood, hmethod, parseUrlText, hfirst,
    if_neg hlong, hurl]

/-- The version and the method are those of the parts, whatever the buffers are. -/
theorem flags {isGet : Bool}
    (hversion : requestVersion r.version = .dotZero ∨ requestVersion r.version = .dotOne)
    (hmethod : requestMethod r.line = some isGet)
    (h : parseText r.bytes out = .ok (status, out')) :
    status = .success ∧ out'.version = requestVersion r.version ∧
      requestMethod r.line = some out'.isGet := by
  rw [r.parseText_eq hversion hmethod] at h
  obtain ⟨copied, hcopied, h⟩ := bind_eq_ok.mp h
  obtain ⟨read, hread, h⟩ := bind_eq_ok.mp h
  cases h
  rw [r.applyUrl_eq] at hcopied
  obtain ⟨hostname, -, hcopied⟩ := bind_eq_ok.mp hcopied
  obtain ⟨path, -, hcopied⟩ := bind_eq_ok.mp hcopied
  cases hcopied
  have hlines := headerLines_ok hread
  exact ⟨rfl, hlines.version, by rw [hmethod, hlines.isGet]⟩

/-- The host lines write over the host of the url, whatever the buffers are. -/
theorem leaves_host {isGet : Bool}
    (hversion : requestVersion r.version = .dotZero ∨ requestVersion r.version = .dotOne)
    (hmethod : requestMethod r.line = some isGet)
    (h : parseText r.bytes out = .ok (status, out')) :
    (out'.hostname.getD · 0) =
      (completeLines r.headers).foldl overwriteHost (r.copiedHost out.hostname) := by
  rw [r.parseText_eq hversion hmethod] at h
  obtain ⟨copied, hcopied, h⟩ := bind_eq_ok.mp h
  obtain ⟨read, hread, h⟩ := bind_eq_ok.mp h
  cases h
  rw [r.applyUrl_eq] at hcopied
  obtain ⟨hostname, hhost, hcopied⟩ := bind_eq_ok.mp hcopied
  obtain ⟨path, -, hcopied⟩ := bind_eq_ok.mp hcopied
  cases hcopied
  have hcopy : (hostname.getD · 0) = r.copiedHost out.hostname := by
    funext i
    rw [copyName_getD (by simp) le_rfl hhost i, copiedHost]
    refine ite_congr rfl (fun hlt ↦ ?_) fun _ ↦ rfl
    simp [List.getElem?_append, hlt]
  rw [(headerLines_ok hread).host, hcopy]

/-- What a successful parse of the parts leaves. -/
theorem leaves {isGet : Bool}
    (hversion : requestVersion r.version = .dotZero ∨ requestVersion r.version = .dotOne)
    (hmethod : requestMethod r.line = some isGet) (hlast : out.path.drop maxUrlSize = [0])
    (hnul : 0 ∉ r.path) (h : parseText r.bytes out = .ok (status, out')) :
    r.Leaves out out' := by
  obtain ⟨-, hflags⟩ := r.flags hversion hmethod h
  have hhost := r.leaves_host hversion hmethod h
  rw [r.parseText_eq hversion hmethod] at h
  obtain ⟨copied, hcopied, h⟩ := bind_eq_ok.mp h
  obtain ⟨read, hread, h⟩ := bind_eq_ok.mp h
  cases h
  rw [r.applyUrl_eq] at hcopied
  obtain ⟨hostname, -, hcopied⟩ := bind_eq_ok.mp hcopied
  obtain ⟨path, hpath, hcopied⟩ := bind_eq_ok.mp hcopied
  cases hcopied
  obtain ⟨path', hpath', -, hstring⟩ := copyPath_ok hlast hnul r.path_slash
  obtain rfl : path = path' := Except.ok.inj (hpath.symm.trans hpath')
  have hlines := headerLines_ok hread
  refine ⟨hflags.1, hflags.2, hhost, ?_, ?_⟩
  · rw [hlines.path, hstring]
  · simpa using hlines.keepAlive

theorem Leaves.accepted {r : AbsoluteRequest} (h : r.Leaves out out')
    (hversion : requestVersion r.version = .dotZero ∨ requestVersion r.version = .dotOne) :
    Accepted .success out' :=
  ⟨rfl, h.version ▸ hversion⟩

/-- The bytes of the host come from the host of the url and from the header lines. -/
theorem Leaves.forall_host {r : AbsoluteRequest} {P : UInt8 → Prop} (h : r.Leaves out out')
    (hnul : P 0)
    (hzero : out.hostname = List.replicate (maxNameLength + 1) 0) (hhost : ∀ c ∈ r.host, P c)
    (hlines : ∀ line ∈ completeLines r.headers, ∀ c ∈ line, P c) :
    ∀ c ∈ cstr out'.hostname 0, P c := by
  refine forall_mem_cstr fun i ↦ ?_
  have hbyte := congrFun h.host i
  rw [r.copiedHost_zeroed hzero] at hbyte
  rw [hbyte]
  refine foldl_overwriteHost_forall hnul (fun j ↦ ?_) hlines i
  rw [List.getD_eq_getElem?_getD]
  cases hj : r.host[j]? with
  | none => exact hnul
  | some c => exact hhost c (List.mem_of_getElem? hj)

/-- Without a `Host` line the host is that of the url. -/
theorem Leaves.host_of_url {r : AbsoluteRequest} (h : r.Leaves out out')
    (hzero : out.hostname = List.replicate (maxNameLength + 1) 0) (hnul : 0 ∉ r.host)
    (hlines : ∀ line ∈ completeLines r.headers, ¬IsHostLine line) :
    cstr out'.hostname 0 = r.host := by
  have hbytes := h.host
  rw [foldl_overwriteHost_of_forall_not hlines, r.copiedHost_zeroed hzero] at hbytes
  exact cstr_of_getD hbytes hnul

/-- Parts that fit are parsed. -/
theorem exists_parse {isGet : Bool}
    (hversion : requestVersion r.version = .dotZero ∨ requestVersion r.version = .dotOne)
    (hmethod : requestMethod r.line = some isGet) (hout : BuffersFit out)
    (hhost : r.host.length ≤ maxNameLength)
    (hlines : ∀ line ∈ completeLines r.headers, IsHostLine line → HostLineFits line) :
    ∃ out', parseText r.bytes out = .ok (.success, out') := by
  have hfit : UrlAndHeadersFit r.url r.headers := by
    obtain ⟨rest, hpath⟩ := List.head?_eq_some_iff.mp r.path_slash
    refine ⟨fun _ ↦ ?_, hlines⟩
    rw [UrlFits, r.url_drop, hpath, takeWhile_ne_append_cons r.host_slash]
    exact ⟨by simp, hhost⟩
  have hout' : BuffersFit { out with version := requestVersion r.version, isGet := isGet } :=
    ⟨hout.1, hout.2, hout.3⟩
  rw [r.parseText_eq hversion hmethod]
  have hdecides : Decides _ (UrlAndHeadersFit r.url r.headers) _ := urlAndHeaders_decides hout'
  rcases hdecides with ⟨-, ⟨status, out'⟩, hok, -⟩ | ⟨hbad, -⟩
  · refine ⟨out', ?_⟩
    rw [hok]
    obtain ⟨copied, -, hrest⟩ := bind_eq_ok.mp hok
    obtain ⟨read, -, hrest⟩ := bind_eq_ok.mp hrest
    cases hrest
    rfl
  · exact absurd hfit hbad

/-- The parser returns on parts that fit, with their version and method. -/
theorem exists_parseRequest {isGet : Bool}
    (hversion : requestVersion r.version = .dotZero ∨ requestVersion r.version = .dotOne)
    (hmethod : requestMethod r.line = some isGet) (hout : BuffersFit out)
    (hhost : r.host.length ≤ maxNameLength)
    (hlines : ∀ line ∈ completeLines r.headers, IsHostLine line → HostLineFits line)
    (hnul : 0 ∉ r.bytes) (rest : List UInt8) :
    ∃ left out', parseRequestString (r.bytes ++ 0 :: rest) out = .ok (.success, left, out') ∧
      r.Leaves out out' := by
  obtain ⟨out', hparse⟩ := r.exists_parse hversion hmethod hout hhost hlines
  obtain ⟨left, hleft⟩ := exists_parse_of_parseText rest hnul hparse
  have hpath : 0 ∉ r.path := fun h ↦ hnul (r.line_subset (r.path_subset h))
  exact ⟨left, out', hleft, r.leaves hversion hmethod hout.path_last hpath hparse⟩

end AbsoluteRequest

/-! ## Accepted requests -/

/-- A url that is not left malformed is absolute and has a slash behind its host. -/
theorem applyUrl_slash {url : List UInt8} (h : applyUrl url out = .ok out')
    (hversion : out'.version ≠ .malformed) :
    matchesCommandCaseInsensitive url "http://" = true ∧ 47 ∈ url.drop 7 := by
  unfold applyUrl at h
  split at h
  next hother =>
    cases h
    exact absurd rfl hversion
  next hhttp =>
    refine ⟨by simpa using hhttp, ?_⟩
    by_contra hslash
    rw [idxOf?_eq_none hslash] at h
    cases h

/-- The version that a line without a url is left with is not one the parser knows. -/
theorem parseLineText_accepted {line headers : List UInt8}
    (h : parseLineText line headers out = .ok (status, out'))
    (hversion : out'.version = .dotZero ∨ out'.version = .dotOne) :
    ∃ method url version isGet, line = method ++ space :: (url ++ space :: version) ∧
      space ∉ method ∧ space ∉ version ∧ requestMethod line = some isGet ∧
        (requestVersion version = .dotZero ∨ requestVersion version = .dotOne) ∧
          matchesCommandCaseInsensitive url "http://" = true ∧ 47 ∈ url.drop 7 := by
  have hbad (hmalformed : out'.version = .malformed) : False := by
    rcases hversion with h | h <;> simp [hmalformed] at h
  unfold parseLineText at h
  cases hlast : lastIdxOf? line space with
  | none =>
      rw [hlast] at h
      cases h
      exact (hbad rfl).elim
  | some lastSpace =>
      obtain ⟨before, version, hline, hspace, rfl⟩ := split_of_lastIdxOf? hlast
      have hdrop : line.drop (before.length + 1) = version := by simp [hline]
      simp only [hlast, hdrop] at h
      split at h
      next hnone =>
        cases h
        rcases hversion with hgood | hgood <;> rcases hnone with hnone | hnone <;>
          cases hgood.symm.trans hnone
      next hgood =>
        have hgood : requestVersion version = .dotZero ∨ requestVersion version = .dotOne := by
          cases hv : requestVersion version <;> simp [hv] at hgood ⊢
        cases hmethod : requestMethod line with
        | none =>
            rw [hmethod] at h
            cases h
            exact (hbad rfl).elim
        | some isGet =>
            rw [hmethod] at h
            simp only at h
            rcases parseUrlText_cases hline hspace hgood (by simp [hmethod]) _ with
              ⟨-, hend⟩ | ⟨url, ⟨method, version', hline', hm, hv, -⟩, hend⟩
            · rw [hend] at h
              cases h
              exact (hbad rfl).elim
            · rw [hend] at h
              obtain ⟨copied, hcopied, h⟩ := bind_eq_ok.mp h
              obtain ⟨read, hread, h⟩ := bind_eq_ok.mp h
              cases h
              have hsame : (method ++ space :: url) ++ space :: version' =
                  before ++ space :: version := by
                rw [← hline, hline']
                simp
              obtain rfl := (last_split_unique hsame hv hspace).2
              have hread := (headerLines_ok hread).version
              exact ⟨method, url, version', isGet, hline', hm, hv, rfl, hgood,
                applyUrl_slash hcopied fun hmalformed ↦ hbad (hread.trans hmalformed)⟩

/-- An accepted request has the parts of a request for an absolute url, with a method and a
version the parser knows. -/
theorem exists_absoluteRequest (h : parseText t out = .ok (.success, out'))
    (hversion : out'.version = .dotZero ∨ out'.version = .dotOne) :
    ∃ (r : AbsoluteRequest) (isGet : Bool), t = r.bytes ∧ requestMethod r.line = some isGet ∧
      (requestVersion r.version = .dotZero ∨ requestVersion r.version = .dotOne) := by
  by_cases hmem : lf ∈ t
  · obtain ⟨line, headers, rfl, hline⟩ := List.eq_append_cons_of_mem hmem
    rw [parseText_line _ hline] at h
    obtain ⟨method, url, version, isGet, rfl, hm, hv, hmethod, hgood, hhttp, hslash⟩ :=
      parseLineText_accepted h hversion
    obtain ⟨host, rest, hurl, hhost⟩ := List.eq_append_cons_of_mem hslash
    have hparts : url = url.take 7 ++ host ++ 47 :: rest := by
      rw [List.append_assoc, ← hurl, List.take_append_drop]
    rw [hparts] at hline hmethod ⊢
    exact ⟨⟨method, url.take 7, host, 47 :: rest, version, headers, hm, matchesHttp_iff.mp hhttp,
      hhost, rfl, hv, by simpa using hline⟩, isGet, rfl, hmethod, hgood⟩
  · rw [parseText, idxOf?_eq_none hmem] at h
    cases h

/-- The parts of a request are determined by its text. -/
theorem AbsoluteRequest.parts_unique {r r' : AbsoluteRequest} (h : r.bytes = r'.bytes) :
    r.line = r'.line ∧ r.method = r'.method ∧ r.host = r'.host ∧ r.version = r'.version := by
  obtain ⟨hline, -⟩ := first_split_unique h r.line_notMem r'.line_notMem
  obtain ⟨hmethod, hrest⟩ := first_split_unique hline r.method_space r'.method_space
  obtain ⟨hurl, hversion⟩ := last_split_unique hrest r.version_space r'.version_space
  have hdrop : r.host ++ r.path = r'.host ++ r'.path := by rw [← r.url_drop, hurl, r'.url_drop]
  obtain ⟨rest, hpath⟩ := List.head?_eq_some_iff.mp r.path_slash
  obtain ⟨rest', hpath'⟩ := List.head?_eq_some_iff.mp r'.path_slash
  rw [hpath, hpath'] at hdrop
  exact ⟨hline, hmethod, (first_split_unique hdrop r.host_slash r'.host_slash).1, hversion⟩

/-- A request with the parts of one for an absolute url is accepted for its version and its
method. -/
theorem AbsoluteRequest.accepted (r : AbsoluteRequest)
    (h : parseText r.bytes out = .ok (.success, out'))
    (hversion : out'.version = .dotZero ∨ out'.version = .dotOne) :
    (requestVersion r.version = .dotZero ∨ requestVersion r.version = .dotOne) ∧
      ∃ isGet, requestMethod r.line = some isGet := by
  obtain ⟨r', isGet, hbytes, hmethod, hgood⟩ := exists_absoluteRequest h hversion
  obtain ⟨hline, -, -, hsame⟩ := parts_unique hbytes
  rw [hline, hsame]
  exact ⟨hgood, isGet, hmethod⟩

/-- An accepted request has the parts of a request for an absolute url and leaves what they
say. -/
theorem exists_leaves {left rest : List UInt8} (ht : 0 ∉ t) (hout : BuffersFit out)
    (h : parseRequestString (t ++ 0 :: rest) out = .ok (.success, left, out'))
    (hversion : out'.version = .dotZero ∨ out'.version = .dotOne) :
    ∃ r : AbsoluteRequest, t = r.bytes ∧ r.Leaves out out' := by
  have hparse := parseText_of_parse ht h
  obtain ⟨r, isGet, rfl, hmethod, hgood⟩ := exists_absoluteRequest hparse hversion
  have hpath : 0 ∉ r.path := fun hmem ↦ ht (r.line_subset (r.path_subset hmem))
  exact ⟨r, rfl, r.leaves hgood hmethod hout.path_last hpath hparse⟩

end HttpProxy
