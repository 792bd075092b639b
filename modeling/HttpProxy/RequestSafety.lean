import HttpProxy.Lib.Fallible
import HttpProxy.RequestText

/-!
# When the request parser is safe

The parser trusts the url to have a slash after its host, the host to fit its buffer
and every `Host` value to be neither short nor long.  On every other request it returns
with both texts inside their buffers.
-/

namespace HttpProxy

open CString Fallible

variable {t line headers url hostname : List UInt8} {out : ParseOut}

/-- The host of an absolute url is ended by a slash and fits its buffer. -/
def UrlFits (url : List UInt8) : Prop :=
  47 ∈ url.drop 7 ∧ ((url.drop 7).takeWhile (· ≠ 47)).length ≤ maxNameLength

/-- A `Host` value has two bytes, its carriage return included, and at most one more than
a name may have. -/
def HostLineFits (line : List UInt8) : Prop :=
  2 ≤ (hostValue line).length ∧ (hostValue line).length ≤ maxNameLength + 1

/-- A request line with a known version and a known method, and the text between its
first and its last space. -/
def HasUrl (line url : List UInt8) : Prop :=
  ∃ method version : List UInt8, line = method ++ space :: (url ++ space :: version) ∧
    space ∉ method ∧ space ∉ version ∧ url ≠ [] ∧
    (requestVersion version = .dotZero ∨ requestVersion version = .dotOne) ∧
    (requestMethod line).isSome

def UrlAndHeadersFit (url headers : List UInt8) : Prop :=
  (matchesCommandCaseInsensitive url "http://" = true → UrlFits url) ∧
    ∀ header ∈ completeLines headers,
      matchesCommandCaseInsensitive header "Host: " = true → HostLineFits header

/-- The texts on which the parser does not go wrong. -/
def RequestSafe (t : List UInt8) : Prop :=
  ∀ line headers url, t = line ++ lf :: headers → lf ∉ line → HasUrl line url →
    UrlAndHeadersFit url headers

/-- The sizes of the buffers of `process_job`.  The last byte of the path is never
written. -/
structure BuffersFit (out : ParseOut) : Prop where
  hostname_length : out.hostname.length = maxNameLength + 1
  hostname_terminated : 0 ∈ out.hostname
  path_last : out.path.drop maxUrlSize = [0]

theorem BuffersFit.path_length (h : BuffersFit out) : out.path.length = maxUrlSize + 1 := by
  have hlen := congrArg List.length h.path_last
  simp only [List.length_drop, List.length_cons, List.length_nil] at hlen
  omega

theorem BuffersFit.path_terminated (h : BuffersFit out) : 0 ∈ out.path :=
  List.mem_of_mem_drop (i := maxUrlSize) (by simp [h.path_last])

/-- The parser returns with both texts inside their buffers and terminated. -/
def ParsesSafely (request : List UInt8) (out : ParseOut) : Prop :=
  ∃ status request' out', parseRequestString request out = .ok (status, request', out') ∧
    out'.hostname.length = maxNameLength + 1 ∧ 0 ∈ out'.hostname ∧
    out'.path.length = maxUrlSize + 1 ∧ 0 ∈ out'.path

/-! ## Copies -/

theorem copyChecked_decides (dst src : List UInt8) (n : ℤ) :
    Decides (copyChecked dst src n) (0 ≤ n ∧ n ≤ dst.length)
      fun dst' ↦ dst' = strncpy dst src n.toNat ∧ dst'.length = dst.length := by
  unfold copyChecked
  split
  next h => exact decides_error (by omega)
  next h =>
    split
    next h' => exact decides_error (by omega)
    next h' => exact decides_ok (by omega) ⟨rfl, length_strncpy (by omega)⟩

theorem terminateChecked_decides (dst : List UInt8) (i : ℤ) :
    Decides (terminateChecked dst i) (0 ≤ i ∧ i < dst.length)
      fun dst' ↦ dst'.length = dst.length ∧ 0 ∈ dst' := by
  unfold terminateChecked
  split
  next h => exact decides_error (by omega)
  next h =>
    refine decides_ok (by omega) ⟨by simp, ?_⟩
    exact List.mem_set (by omega) 0

theorem copyName_decides (hlen : hostname.length = maxNameLength + 1) (src : List UInt8)
    (n i : ℤ) :
    Decides (copyName hostname src n i)
      ((0 ≤ n ∧ n ≤ maxNameLength + 1) ∧ 0 ≤ i ∧ i ≤ maxNameLength)
      fun hostname' ↦ hostname'.length = maxNameLength + 1 ∧ 0 ∈ hostname' := by
  have hcopy := copyChecked_decides hostname src n
  rw [hlen] at hcopy
  apply (hcopy.congr (d := 0 ≤ n ∧ n ≤ maxNameLength + 1) (by omega)).bind
  rintro copied ⟨-, hcopied⟩
  have hend := terminateChecked_decides copied i
  rw [hcopied] at hend
  exact hend.congr (by omega)

/-! ## The header lines -/

theorem lineHost_decides (line : List UInt8) (hlen : hostname.length = maxNameLength + 1) :
    Decides (lineHost line hostname) (HostLineFits line)
      fun hostname' ↦ hostname'.length = maxNameLength + 1 ∧ 0 ∈ hostname' := by
  apply (copyName_decides hlen _ _ _).congr
  simp only [HostLineFits]
  omega

theorem not_host_of_keepAlive
    (h : matchesCommandCaseInsensitive line "Proxy-Connection: keep-alive" = true) :
    ¬matchesCommandCaseInsensitive line "Host: " = true := by
  intro hhost
  have h1 := strncasecmpEq_iff.mp h
  have h2 := strncasecmpEq_iff.mp hhost
  rcases List.prefix_or_prefix_of_prefix h1 h2 with h | h <;> revert h <;> decide

theorem headerLine_decides (line : List UInt8) (hout : BuffersFit out) :
    Decides (headerLine out line)
      (matchesCommandCaseInsensitive line "Host: " = true → HostLineFits line) BuffersFit := by
  unfold headerLine
  split
  next hproxy =>
    exact decides_ok (fun h ↦ absurd h (not_host_of_keepAlive hproxy)) ⟨hout.1, hout.2, hout.3⟩
  next =>
    split
    next hhost =>
      refine (((lineHost_decides line hout.hostname_length).bind
        (d := True) ?_).congr (by simp [hhost]))
      rintro hostname' ⟨hlen, hmem⟩
      exact decides_ok trivial ⟨hlen, hmem, hout.path_last⟩
    next hhost => exact decides_ok (fun h ↦ absurd h hhost) hout

/-! ## The url -/

theorem stripLastSlash_decides {path : List UInt8} (hlast : path.drop maxUrlSize = [0])
    (hslash : 47 ∈ cstr path 0) :
    Decides (stripLastSlash path) True fun path' ↦ path'.drop maxUrlSize = [0] := by
  unfold stripLastSlash
  rw [strrchr_of_ne_zero (by decide)]
  obtain ⟨slash, hfound⟩ : ∃ slash, lastIdxOf? (cstr path 0) 47 = some slash := by
    obtain ⟨b, a, hsplit, hb⟩ := List.eq_append_cons_of_mem (List.mem_reverse.mpr hslash)
    have hpath : cstr path 0 = a.reverse ++ 47 :: b.reverse := by
      rw [← List.reverse_reverse (cstr path 0), hsplit]
      simp
    exact ⟨_, by rw [hpath, lastIdxOf?_append_cons (by simpa using hb)]⟩
  rw [hfound]
  simp only [Option.map_some]
  split
  · apply decides_ok trivial
    rw [List.drop_set]
    split
    · exact hlast
    · rw [hlast]
      generalize 0 + slash - maxUrlSize = k
      cases k <;> rfl
  · exact decides_ok trivial hlast

theorem slash_mem_strncpy (path rest : List UInt8) {n : ℕ} (hn : 0 < n) :
    47 ∈ cstr (strncpy path (47 :: rest) n) 0 := by
  obtain ⟨m, rfl⟩ : ∃ m, n = m + 1 := ⟨n - 1, by omega⟩
  simp [strncpy, cstr]

theorem copyPath_decides {path rest : List UInt8} (hlast : path.drop maxUrlSize = [0]) :
    Decides (copyChecked path (47 :: rest) maxUrlSize >>= stripLastSlash) True
      fun path' ↦ path'.drop maxUrlSize = [0] := by
  have hlen : path.length = maxUrlSize + 1 := by
    have := congrArg List.length hlast
    simp only [List.length_drop, List.length_cons, List.length_nil] at this
    omega
  refine ((copyChecked_decides path (47 :: rest) maxUrlSize).bind (d := True) ?_).congr
    (by simp only [hlen, and_true, iff_true]; omega)
  rintro _ ⟨rfl, -⟩
  refine stripLastSlash_decides ?_ (slash_mem_strncpy path rest (by decide))
  rw [Int.toNat_natCast, drop_strncpy le_rfl, hlast]

theorem applyUrl_decides (hout : BuffersFit out) :
    Decides (applyUrl url out)
      (matchesCommandCaseInsensitive url "http://" = true → UrlFits url) BuffersFit := by
  unfold applyUrl
  split
  next h =>
    refine decides_ok (fun hhttp ↦ ?_) ⟨hout.1, hout.2, hout.3⟩
    simp [hhttp] at h
  next h =>
    have hhttp : matchesCommandCaseInsensitive url "http://" = true := by simpa using h
    cases hn : (url.drop 7).idxOf? 47 with
    | none =>
        refine decides_error fun hfits ↦ ?_
        exact (List.idxOf?_eq_none_iff.mp hn) (hfits hhttp).1
    | some n =>
        obtain ⟨host, path, hsplit, hhost, rfl⟩ := split_of_idxOf? hn
        have hdrop : (url.drop 7).drop host.length = 47 :: path := by simp [hsplit]
        have htake : (url.drop 7).takeWhile (· ≠ 47) = host := by
          rw [hsplit, takeWhile_ne_append_cons hhost]
        have hfits : UrlFits url ↔ host.length ≤ maxNameLength := by
          rw [UrlFits, htake]
          simp [hsplit]
        simp only [hdrop]
        refine ((copyName_decides hout.hostname_length (url.drop 7) host.length
          host.length).bind (d := True) ?_).congr ?_
        · rintro hostname ⟨hlen, hmem⟩
          rw [← bind_assoc]
          refine ((copyPath_decides hout.path_last).bind (d := True) ?_).congr (by simp)
          exact fun path hpath ↦ decides_ok trivial ⟨hlen, hmem, hpath⟩
        · simp only [hhttp, hfits, true_implies, and_true]
          omega

/-! ## The request -/

theorem urlAndHeaders_decides (hout : BuffersFit out) :
    Decides (do
        let out ← applyUrl url out
        let out ← (completeLines headers).foldlM headerLine { out with proxyKeepAlive := false }
        .ok (Status.success, out))
      (UrlAndHeadersFit url headers) fun result ↦ BuffersFit result.2 := by
  refine (applyUrl_decides hout).bind fun out hout ↦ ?_
  have hlines := decides_foldlM (fun _ line ↦ headerLine_decides line)
    (completeLines headers) (a := { out with proxyKeepAlive := false })
    ⟨hout.1, hout.2, hout.3⟩
  have hend := hlines.bind (d := True) (R := fun result ↦ BuffersFit result.2)
    fun out hout ↦ decides_ok (a := (Status.success, out)) trivial hout
  exact hend.congr (iff_of_eq (and_true _))

/-- The text between the first and the last space is determined by the line. -/
theorem HasUrl.unique {url' : List UInt8} (h : HasUrl line url) (h' : HasUrl line url') :
    url = url' := by
  obtain ⟨method, version, rfl, hmethod, hversion, -⟩ := h
  obtain ⟨method', version', hline, hmethod', hversion', -⟩ := h'
  obtain ⟨-, hrest⟩ := first_split_unique hline hmethod hmethod'
  exact (last_split_unique hrest hversion hversion').1

/-- A line with a version and a method has a url unless nothing is between its spaces. -/
theorem parseUrlText_cases {before version : List UInt8} (hline : line = before ++ space :: version)
    (hversion : space ∉ version)
    (hgood : requestVersion version = .dotZero ∨ requestVersion version = .dotOne)
    (hknown : (requestMethod line).isSome) (out : ParseOut) :
    ((∀ url, ¬HasUrl line url) ∧ ∀ headers, parseUrlText line headers before.length out =
        .ok (.success, { out with version := .malformed })) ∨
      ∃ url, HasUrl line url ∧ ∀ headers, parseUrlText line headers before.length out = (do
        let out ← applyUrl url out
        let out ← (completeLines headers).foldlM headerLine { out with proxyKeepAlive := false }
        .ok (.success, out)) := by
  have hmem : space ∈ line := by simp [hline]
  obtain ⟨method, rest, hfirst, hmethod⟩ := List.eq_append_cons_of_mem hmem
  have hindex : line.idxOf? space = some method.length := by
    rw [hfirst, idxOf?_append_cons hmethod]
  by_cases hge : method.length + 1 ≥ before.length
  · refine .inl ⟨?_, fun headers ↦ by simp only [parseUrlText, hindex, if_pos hge]⟩
    rintro url ⟨m, v, hsplit, hm, hv, hne, -⟩
    have hlast : before ++ space :: version = (m ++ space :: url) ++ space :: v := by
      rw [← hline, hsplit]
      simp
    have hbefore := (last_split_unique hlast hversion hv).1
    have hm' : m = method := (first_split_unique (hsplit.symm.trans hfirst) hm hmethod).1
    have hlength := congrArg List.length hbefore
    have hpos := List.length_pos_iff.mpr hne
    rw [hm'] at hlength
    simp at hlength
    omega
  · have htake : line.take before.length = before := by simp [hline]
    have hpre : method ++ [space] <+: before := by
      have hstart : method ++ [space] <+: line := ⟨rest, by simp [hfirst]⟩
      have hcut : before <+: line := ⟨_, hline.symm⟩
      exact List.prefix_of_prefix_length_le hstart hcut (by simp; omega)
    obtain ⟨url, hurl⟩ := hpre
    have hcut : (line.take before.length).drop (method.length + 1) = url := by
      rw [htake, ← hurl]
      simp
    have hne : url ≠ [] := by
      rintro rfl
      rw [← hurl] at hge
      simp at hge
    refine .inr ⟨url, ⟨method, version, ?_, hmethod, hversion, hne, hgood, hknown⟩, ?_⟩
    · rw [hline, ← hurl]
      simp
    · intro headers
      simp only [parseUrlText, hindex, if_neg hge, hcut]

/-- The header lines are read exactly if the request line has a url. -/
theorem parseLineText_cases (line : List UInt8) (out : ParseOut) :
    ((∀ url, ¬HasUrl line url) ∧ ∃ version isGet, ∀ headers, parseLineText line headers out =
        .ok (.success, { out with version := version, isGet := isGet })) ∨
      ∃ url version isGet, HasUrl line url ∧ ∀ headers, parseLineText line headers out = (do
        let out ← applyUrl url { out with version := version, isGet := isGet }
        let out ← (completeLines headers).foldlM headerLine { out with proxyKeepAlive := false }
        .ok (.success, out)) := by
  by_cases hmem : space ∈ line
  · obtain ⟨after, before, hrev, hafter⟩ :=
      List.eq_append_cons_of_mem (List.mem_reverse.mpr hmem)
    obtain ⟨before, version, hline, hversion⟩ :
        ∃ before version, line = before ++ space :: version ∧ space ∉ version := by
      refine ⟨before.reverse, after.reverse, ?_, by simpa using hafter⟩
      rw [← List.reverse_reverse line, hrev]
      simp
    have hlast : lastIdxOf? line space = some before.length := by
      rw [hline, lastIdxOf?_append_cons hversion]
    have hdrop : line.drop (before.length + 1) = version := by simp [hline]
    have hvalid {url : List UInt8} (h : HasUrl line url) :
        (requestVersion version = .dotZero ∨ requestVersion version = .dotOne) ∧
          (requestMethod line).isSome := by
      obtain ⟨m, v, hsplit, -, hv, -, hgood, hknown⟩ := h
      have hsame : before ++ space :: version = (m ++ space :: url) ++ space :: v := by
        rw [← hline, hsplit]
        simp
      rw [(last_split_unique hsame hversion hv).2]
      exact ⟨hgood, hknown⟩
    by_cases hbad : requestVersion version = .malformed ∨ requestVersion version = .notSupported
    · refine .inl ⟨fun url h ↦ ?_, requestVersion version, out.isGet, fun headers ↦ ?_⟩
      · rcases (hvalid h).1 with hgood | hgood <;> simp [hgood] at hbad
      · simp only [parseLineText, hlast, hdrop, if_pos hbad]
    · cases hknown : requestMethod line with
      | none =>
          refine .inl ⟨fun url h ↦ by simpa [hknown] using (hvalid h).2, .malformed, out.isGet,
            fun headers ↦ ?_⟩
          simp only [parseLineText, hlast, hdrop, if_neg hbad, hknown]
      | some isGet =>
          have hgood : requestVersion version = .dotZero ∨ requestVersion version = .dotOne := by
            cases hv : requestVersion version <;> simp [hv] at hbad ⊢
          have hsome : (requestMethod line).isSome := by simp [hknown]
          have hstart (headers : List UInt8) : parseLineText line headers out =
              parseUrlText line headers before.length
                { out with version := requestVersion version, isGet := isGet } := by
            simp only [parseLineText, hlast, hdrop, if_neg hbad, hknown]
          rcases parseUrlText_cases hline hversion hgood hsome _ with
            ⟨hnone, hend⟩ | ⟨url, hurl, hend⟩
          · exact .inl ⟨hnone, .malformed, isGet,
              fun headers ↦ (hstart headers).trans (hend headers)⟩
          · exact .inr ⟨url, _, isGet, hurl, fun headers ↦ (hstart headers).trans (hend headers)⟩
  · have hnone : lastIdxOf? line space = none := lastIdxOf?_eq_none hmem
    refine .inl ⟨?_, .malformed, out.isGet, fun headers ↦ by simp only [parseLineText, hnone]⟩
    rintro url ⟨m, v, rfl, -⟩
    simp at hmem

theorem parseLineText_decides (hout : BuffersFit out) :
    Decides (parseLineText line headers out) (∀ url, HasUrl line url → UrlAndHeadersFit url headers)
      fun result ↦ BuffersFit result.2 := by
  rcases parseLineText_cases line out with ⟨hnone, version, isGet, hend⟩ |
    ⟨url, version, isGet, hurl, hend⟩
  · rw [hend]
    exact decides_ok (fun url h ↦ absurd h (hnone url)) ⟨hout.1, hout.2, hout.3⟩
  · rw [hend]
    have hout' : BuffersFit { out with version := version, isGet := isGet } :=
      ⟨hout.1, hout.2, hout.3⟩
    refine (urlAndHeaders_decides hout').congr ⟨fun hfit url' h ↦ ?_, fun hfit ↦ hfit url hurl⟩
    rwa [h.unique hurl]

/-- On the text of a request the parser succeeds exactly where it is safe. -/
theorem parseText_decides (hout : BuffersFit out) :
    Decides (parseText t out) (RequestSafe t) fun result ↦ BuffersFit result.2 := by
  unfold parseText
  by_cases hmem : lf ∈ t
  · obtain ⟨line, headers, rfl, hline⟩ := List.eq_append_cons_of_mem hmem
    have htake : (line ++ lf :: headers).take line.length = line := by simp
    have hdrop : (line ++ lf :: headers).drop (line.length + 1) = headers := by simp
    simp only [idxOf?_append_cons hline, htake, hdrop]
    refine (parseLineText_decides hout).congr ⟨?_, fun h url ↦ h line headers url rfl hline⟩
    intro hfit line' headers' url h hline' hurl
    obtain ⟨rfl, rfl⟩ := first_split_unique h hline hline'
    exact hfit url hurl
  · rw [idxOf?_eq_none hmem]
    refine decides_ok ?_ hout
    rintro line headers url rfl
    simp at hmem

/-- The parser is safe on a NUL-terminated request if and only if the request is one of
the safe texts. -/
theorem parsesSafely_iff_requestSafe (rest : List UInt8) (ht : 0 ∉ t)
    (hhost : out.hostname = List.replicate (maxNameLength + 1) 0)
    (hpath : out.path = List.replicate (maxUrlSize + 1) 0) :
    ParsesSafely (t ++ 0 :: rest) out ↔ RequestSafe t := by
  have hout : BuffersFit out :=
    ⟨by simp [hhost], by simp [hhost], by simp [hpath]⟩
  rcases parseText_decides (t := t) hout with
    ⟨hsafe, ⟨status, out'⟩, hok, hfit⟩ | ⟨hbreak, fault, hbad⟩
  · refine iff_of_true ?_ hsafe
    obtain ⟨left, hparse⟩ := exists_parse_of_parseText rest ht hok
    exact ⟨status, left, out', hparse, hfit.hostname_length, hfit.hostname_terminated,
      hfit.path_length, hfit.path_terminated⟩
  · refine iff_of_false ?_ hbreak
    rintro ⟨status, left, out', hok, -⟩
    cases (parse_error_of_parseText rest ht hbad).symm.trans hok

/-- The buffers of `process_job` before the first request line is parsed. -/
def emptyParseOut : ParseOut where
  isGet := false
  hostname := List.replicate (maxNameLength + 1) 0
  path := List.replicate (maxUrlSize + 1) 0
  version := .malformed
  proxyKeepAlive := false

theorem parsesSafely_iff_of_short_host_value :
    ParsesSafely (text "GET http://a/ HTTP/1.1\r\nHost: \r\n" ++ 0 :: []) emptyParseOut ↔
      RequestSafe (text "GET http://a/ HTTP/1.1\r\nHost: \r\n") :=
  parsesSafely_iff_requestSafe [] (by decide) rfl rfl

/-- A host without a slash after it sends the parser to a slash that is not there. -/
theorem not_parsesSafely_of_bare_host :
    ¬ParsesSafely (text "GET http://a HTTP/1.1\n" ++ 0 :: []) emptyParseOut := by
  have hrun : parseRequestString (text "GET http://a HTTP/1.1\n" ++ 0 :: []) emptyParseOut =
      .error .nullPointer := by rfl
  rintro ⟨status, request, out, hok, -⟩
  simp [hrun] at hok

end HttpProxy
