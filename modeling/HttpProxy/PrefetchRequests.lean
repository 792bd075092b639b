import HttpProxy.MissedLinks
import HttpProxy.RequestGrammar
import HttpProxy.UpstreamRequest

/-!
# Requests for links

The text of a prefetch job goes back through the request parser.  It is taken for a request of
the link exactly if the link has no line feed in it and, where it names a host of its own, a slash
behind a host that fits.
-/

namespace HttpProxy

open CString Fallible Interaction Protocol

variable {hostname link host rest path request t : List UInt8} {out out' : ParseOut} {c : UInt8}

/-- A host name that the parser has left. -/
def ParsedHost (hostname : List UInt8) : Prop :=
  ∃ (t rest left : List UInt8) (locals : Locals) (out' : ParseOut), 0 ∉ t ∧
    parseRequestString (t ++ 0 :: rest) locals.parseOut = .ok (.success, left, out') ∧
      hostname = cstr out'.hostname 0

/-- A link that `find_href` has returned. -/
def FoundLink (link : List UInt8) : Prop :=
  ∃ (content : List UInt8) (p fuel : ℕ) (file : FileHandle) (tr : Trace) (s : OpenFile),
    scanning.Run ⟨content, p⟩ (findHref fuel file) tr s (.ok (.success link))

/-- The bytes that end the authority of a url: a slash, a question mark or a hash. -/
def EndsAuthority (c : UInt8) : Prop := c = 47 ∨ c = 63 ∨ c = 35

instance (c : UInt8) : Decidable (EndsAuthority c) := inferInstanceAs (Decidable (_ ∨ _))

/-- The host a link names and what follows it.  A link that starts with a slash stays on the
host it was found on. -/
def linkParts (hostname link : List UInt8) : List UInt8 × List UInt8 :=
  if matchesCommand link "/" then (hostname, link)
  else ((link.drop 7).takeWhile (¬EndsAuthority ·), (link.drop 7).dropWhile (¬EndsAuthority ·))

def linkHost (hostname link : List UInt8) : List UInt8 := (linkParts hostname link).1

/-- The path of a link, a slash if there is none. -/
def linkPath (hostname link : List UInt8) : List UInt8 :=
  if (linkParts hostname link).2 = [] then [47] else (linkParts hostname link).2

/-- The parser takes what is in the buffer for a supported GET of this host and this path, up
to a slash at the end. -/
def ParsedAs (request : List UInt8) (out : ParseOut) (host path : List UInt8) : Prop :=
  ∃ left out', parseRequestString request out = .ok (.success, left, out') ∧
    Accepted .success out' ∧ out'.isGet = true ∧ cstr out'.hostname 0 = host ∧
      (cstr out'.path 0 = path ∨ cstr out'.path 0 ++ [47] = path)

/-! ## Host names and links -/

theorem hasUrl_subset {line url : List UInt8} (h : HasUrl line url) : url ⊆ line := by
  obtain ⟨m, v, rfl, -⟩ := h
  intro c hc
  simp [hc]

theorem urlHost_subset (url : List UInt8) : urlHost url ⊆ url := by
  unfold urlHost
  split
  · exact List.Subset.trans (List.takeWhile_subset _) (List.drop_subset _ _)
  · exact List.nil_subset _

/-- The bytes of a host name come from the request line or from one of the lines behind it. -/
theorem parseText_host_lf {status : Status}
    (hzero : out.hostname = List.replicate (maxNameLength + 1) 0)
    (h : parseText t out = .ok (status, out')) : lf ∉ cstr out'.hostname 0 := by
  have hempty : lf ∉ cstr out.hostname 0 := by
    intro hmem
    refine forall_mem_cstr (P := (· ≠ lf)) (fun i ↦ ?_) lf hmem rfl
    rw [hzero, cleared_getD]
    decide
  by_cases hmem : lf ∈ t
  · obtain ⟨line, headers, rfl, hline⟩ := List.eq_append_cons_of_mem hmem
    rw [parseText_line _ hline] at h
    rcases parseLineText_cases line out with ⟨-, version, isGet, hend⟩ |
      ⟨url, version, isGet, hurl, hend⟩
    · rw [hend] at h
      cases h
      exact hempty
    · rw [hend] at h
      obtain ⟨copied, hcopied, h⟩ := bind_eq_ok.mp h
      obtain ⟨read, hread, h⟩ := bind_eq_ok.mp h
      cases h
      have hhost := applyUrl_host (by exact hzero) hcopied
      intro hmem
      refine forall_mem_cstr (P := (· ≠ lf)) (fun i ↦ ?_) lf hmem rfl
      have hbyte := congrFun (headerLines_ok hread).host i
      rw [hhost] at hbyte
      rw [hbyte]
      refine foldl_overwriteHost_forall (P := (· ≠ lf)) (by decide) (fun j ↦ ?_)
        (fun l hl c hc ↦ ?_) i
      · rw [List.getD_eq_getElem?_getD]
        cases hj : (urlHost url)[j]? with
        | none => decide
        | some c =>
            rintro rfl
            exact hline (hasUrl_subset hurl (urlHost_subset url (List.mem_of_getElem? hj)))
      · rintro rfl
        exact completeLines_notMem _ l hl hc
  · rw [parseText, idxOf?_eq_none hmem] at h
    cases h
    exact hempty

theorem parseText_host_length {status : Status} (hfit : BuffersFit out)
    (h : parseText t out = .ok (status, out')) :
    (cstr out'.hostname 0).length ≤ maxNameLength := by
  rcases parseText_decides (t := t) hfit with ⟨-, result, hok, hfit'⟩ | ⟨-, fault, hbad⟩
  · cases hok.symm.trans h
    exact hfit'.hostname_string
  · cases hbad.symm.trans h

theorem ParsedHost.facts (h : ParsedHost hostname) :
    0 ∉ hostname ∧ lf ∉ hostname ∧ hostname.length ≤ maxNameLength := by
  obtain ⟨t, rest, left, locals, out', ht, hparse, rfl⟩ := h
  have htext := parseText_of_parse ht hparse
  exact ⟨fun hmem ↦ by simpa using List.mem_takeWhile_imp hmem, parseText_host_lf rfl htext,
    parseText_host_length locals.buffersFit htext⟩

theorem FoundLink.facts (h : FoundLink link) : 0 ∉ link ∧ link.length ≤ maxUrlSize := by
  obtain ⟨content, p, fuel, file, tr, s, hrun⟩ := h
  have hfd : (0 : ℤ) ≠ -1 := by decide
  have hwithin : (findHref fuel file).Within (JobCalls 0) fun result ↦
      ∀ link, result = .success link → 0 ∉ link ∧ link.length ≤ maxUrlSize :=
    ⟨hfd, fun _ ↦ findHrefLoop_within hfd _ _⟩
  exact (hrun.within hwithin).2 _ rfl _ rfl

/-! ## The text of the request -/

/-- The request line and the empty line with which a page of a host is requested. -/
def prefetchRequest (host rest : List UInt8) : List UInt8 :=
  text "GET http://" ++ (host ++ rest) ++ text " HTTP/1.1\r\n\r\n"

theorem dispatchRequest_eq
    (hstart : matchesCommand link "http://" = true ∨ matchesCommand link "/" = true) :
    dispatchRequest hostname link =
      prefetchRequest (linkHost hostname link) (linkParts hostname link).2 := by
  unfold dispatchRequest prefetchRequest linkHost linkParts
  split
  next => simp only [List.append_assoc]
  next hslash =>
    obtain ⟨after, rfl⟩ := matchesCommand_iff.mp (hstart.resolve_right hslash)
    have hdrop : (text "http://" ++ after).drop 7 = after := rfl
    have hget : text "GET http://" = text "GET " ++ text "http://" := rfl
    rw [hdrop, List.takeWhile_append_dropWhile, hget]
    simp only [List.append_assoc]

/-- The request line in front of its line feed. -/
def prefetchLine (host rest : List UInt8) : List UInt8 :=
  text "GET" ++ space :: ((text "http://" ++ (host ++ rest)) ++ space :: text "HTTP/1.1\r")

theorem prefetchRequest_eq (host rest : List UInt8) :
    prefetchRequest host rest = prefetchLine host rest ++ lf :: crlf := by
  have hget : text "GET http://" = text "GET" ++ space :: text "http://" := rfl
  have hend : text " HTTP/1.1\r\n\r\n" = space :: (text "HTTP/1.1\r" ++ lf :: crlf) := rfl
  rw [prefetchRequest, prefetchLine, hget, hend]
  simp only [List.append_assoc, List.cons_append]

theorem completeLines_crlf : ∀ line ∈ completeLines crlf, ¬IsHostLine line := by decide

theorem prefetchLine_notMem (h : lf ∉ host ++ rest) : lf ∉ prefetchLine host rest := by
  have hget : lf ∉ text "GET" := by decide
  have hscheme : lf ∉ text "http://" := by decide
  have hversion : lf ∉ text "HTTP/1.1\r" := by decide
  have hspace : lf ≠ space := by decide
  simp only [prefetchLine, List.mem_append, List.mem_cons, not_or] at h ⊢
  exact ⟨hget, hspace, ⟨hscheme, h⟩, hspace, hversion⟩

/-- Without a line feed in host and path the request has them as its parts. -/
theorem prefetchRequest_parts {r : AbsoluteRequest} (hlf : lf ∉ host ++ rest)
    (h : prefetchRequest host rest = r.bytes) :
    r.headers = crlf ∧ r.host ++ r.path = host ++ rest := by
  rw [prefetchRequest_eq] at h
  obtain ⟨hline, hheaders⟩ := first_split_unique h (prefetchLine_notMem hlf) r.line_notMem
  obtain ⟨-, hrest⟩ := first_split_unique hline (by decide) r.method_space
  obtain ⟨hurl, -⟩ := last_split_unique hrest (by decide) r.version_space
  have hdrop : (text "http://" ++ (host ++ rest)).drop 7 = host ++ rest := rfl
  exact ⟨hheaders.symm, by rw [← r.url_drop, ← hurl, hdrop]⟩

/-- A request that is parsed to its own host and path has no line feed in them. -/
theorem ParsedAs.notMem (hzero : out.hostname = List.replicate (maxNameLength + 1) 0)
    (hfit : BuffersFit out) (ht : 0 ∉ t) (h : ParsedAs (t ++ 0 :: rest) out host path) :
    lf ∉ host ∧ lf ∉ path := by
  obtain ⟨left, out', hparse, ⟨-, hversion⟩, -, rfl, hpath⟩ := h
  obtain ⟨r, rfl, hleaves⟩ := exists_leaves ht hfit hparse hversion
  refine ⟨parseText_host_lf hzero (parseText_of_parse ht hparse), ?_⟩
  have hline : lf ∉ cstr out'.path 0 := by
    rw [hleaves.path]
    intro hmem
    have hmem' := List.mem_of_mem_take ((withoutLastSlash_isPrefix _).subset hmem)
    exact r.line_notMem (r.path_subset hmem')
  rcases hpath with rfl | rfl
  · exact hline
  · rw [List.mem_append, not_or]
    exact ⟨hline, by decide⟩

theorem prefetchRequest_notMem (hnul : 0 ∉ host ++ rest) : 0 ∉ prefetchRequest host rest := by
  have hget : (0 : UInt8) ∉ text "GET http://" := by decide
  have hend : (0 : UInt8) ∉ text " HTTP/1.1\r\n\r\n" := by decide
  rw [prefetchRequest, List.mem_append, List.mem_append, not_or, not_or]
  exact ⟨⟨hget, hnul⟩, hend⟩

section

variable (hfit : BuffersFit out)
  (hzero : out.hostname = List.replicate (maxNameLength + 1) 0) (hnul : 0 ∉ host ++ rest)
  (hpath : path = if rest = [] then [47] else rest)
include hfit hzero hnul hpath

theorem ParsedAs.fits {more : List UInt8}
    (h : ParsedAs (prefetchRequest host rest ++ 0 :: more) out host path) :
    lf ∉ host ++ rest ∧ host.length ≤ maxNameLength ∧ rest.head? = some 47 := by
  have ht := prefetchRequest_notMem hnul
  obtain ⟨hhost', hpath'⟩ := h.notMem hzero hfit ht
  have hlf : lf ∉ host ++ rest := by
    rw [List.mem_append, not_or]
    refine ⟨hhost', ?_⟩
    rw [hpath] at hpath'
    split at hpath'
    next hnil => simp [hnil]
    next => exact hpath'
  obtain ⟨left, out', hparse, ⟨-, hversion⟩, -, hname, -⟩ := h
  obtain ⟨r, hbytes, hleaves⟩ := exists_leaves ht hfit hparse hversion
  obtain ⟨hheaders, hparts⟩ := prefetchRequest_parts hlf hbytes
  have hnul' : 0 ∉ r.host := fun hmem ↦ hnul (hparts ▸ List.mem_append_left _ hmem)
  have hlines : ∀ line ∈ completeLines r.headers, ¬IsHostLine line := by
    rw [hheaders]
    exact completeLines_crlf
  obtain rfl : r.host = host := (hleaves.host_of_url hzero hnul' hlines).symm.trans hname
  obtain rfl : r.path = rest := List.append_cancel_left hparts
  have hlength := parseText_host_length hfit (parseText_of_parse ht hparse)
  exact ⟨hlf, hname ▸ hlength, r.path_slash⟩

theorem parsedAs_of_fits (hhost : 47 ∉ host) (hrest : rest.length ≤ maxUrlSize)
    (hlf : lf ∉ host ++ rest) (hlength : host.length ≤ maxNameLength)
    (hhead : rest.head? = some 47) (more : List UInt8) :
    ParsedAs (prefetchRequest host rest ++ 0 :: more) out host path := by
  have hparts : HttpParts (text "GET") host rest (text "HTTP/1.1\r") := by
    have hget : lf ∉ text "GET" := by decide
    have hversion : lf ∉ text "HTTP/1.1\r" := by decide
    refine ⟨by decide, hhost, hhead, by decide, ?_⟩
    simp only [List.mem_append, not_or] at hlf ⊢
    exact ⟨⟨⟨hget, hlf.1⟩, hlf.2⟩, hversion⟩
  let r := httpRequest (text "GET") host rest (text "HTTP/1.1\r") crlf hparts
  have hbytes : prefetchRequest host rest = r.bytes := by
    rw [prefetchRequest_eq]
    simp only [r, AbsoluteRequest.bytes, AbsoluteRequest.line, AbsoluteRequest.url, httpRequest,
      prefetchLine, List.append_assoc]
  have hversion : requestVersion r.version = .dotOne :=
    (show requestVersion (text "HTTP/1.1\r") = .dotOne by decide)
  have hmethod : requestMethod r.line = some true := by
    rw [AbsoluteRequest.line, requestMethod_append_space]
    exact (show requestMethod (text "GET") = some true by decide)
  obtain ⟨left, out', hparse, hleaves⟩ := r.exists_parseRequest (.inr hversion) hmethod hfit
    hlength (fun line hline h ↦ absurd h (completeLines_crlf line hline))
    (hbytes ▸ prefetchRequest_notMem hnul) more
  have hname : cstr out'.hostname 0 = host :=
    hleaves.host_of_url hzero (fun hmem ↦ hnul (List.mem_append_left _ hmem)) completeLines_crlf
  have hrest' : cstr out'.path 0 = withoutLastSlash rest := by
    have htake : r.path.take maxUrlSize = rest := List.take_of_length_le hrest
    rw [hleaves.path, htake]
  have hne : rest ≠ [] := by
    rintro rfl
    cases hhead
  rw [if_neg hne] at hpath
  subst hpath
  rw [hbytes]
  refine ⟨left, out', hparse, hleaves.accepted (.inr hversion), ?_, hname, ?_⟩
  · exact Option.some.inj (hleaves.isGet.symm.trans hmethod)
  · rw [hrest']
    exact (withoutLastSlash_cases path).imp Eq.symm Eq.symm

/-- The request is parsed to what it was built from exactly if there is no line feed in it and a
slash behind a host that fits. -/
theorem parsedAs_iff (hhost : 47 ∉ host) (hrest : rest.length ≤ maxUrlSize)
    (more : List UInt8) :
    ParsedAs (prefetchRequest host rest ++ 0 :: more) out host path ↔
      lf ∉ host ++ rest ∧ host.length ≤ maxNameLength ∧ rest.head? = some 47 :=
  ⟨fun h ↦ h.fits hfit hzero hnul hpath, fun ⟨hlf, hlength, hhead⟩ ↦
    parsedAs_of_fits hfit hzero hnul hpath hhost hrest hlf hlength hhead more⟩

end

/-- A link with a host of its own is put together from its parts. -/
theorem linkParts_append (hostname : List UInt8) (h : matchesCommand link "http://" = true) :
    matchesCommand link "/" ≠ true ∧
      link = text "http://" ++ ((linkParts hostname link).1 ++ (linkParts hostname link).2) := by
  obtain ⟨after, rfl⟩ := matchesCommand_iff.mp h
  have hslash : matchesCommand (text "http://" ++ after) "/" ≠ true := by
    intro hmatch
    obtain ⟨rest, hrest⟩ := matchesCommand_iff.mp hmatch
    cases (List.cons.inj hrest).1
  have hdrop : (text "http://" ++ after).drop 7 = after := rfl
  refine ⟨hslash, ?_⟩
  rw [linkParts, if_neg hslash, hdrop, List.takeWhile_append_dropWhile]

/-- The request of a prefetch job is parsed to the host and the path of its link exactly if the
link has no line feed in it and, if it names a host, a slash behind it and a host that fits. -/
theorem prefetchJob_parsedAs_iff (locals : Locals) (hhost : ParsedHost hostname)
    (hslash : 47 ∉ hostname) (hlink : FoundLink link)
    (hstart : matchesCommand link "http://" = true ∨ matchesCommand link "/" = true) :
    ParsedAs (prefetchJob hostname link).request locals.parseOut (linkHost hostname link)
        (linkPath hostname link) ↔
      lf ∉ link ∧ (matchesCommand link "http://" = true →
        (linkHost hostname link).length ≤ maxNameLength ∧
          (linkParts hostname link).2.head? = some 47) := by
  obtain ⟨hnul, hlf, hlength⟩ := hhost.facts
  obtain ⟨hlinkNul, hlinkLength⟩ := hlink.facts
  have hfits : LinkFits hostname link := ⟨hnul, by omega, hlinkNul, hlinkLength⟩
  obtain ⟨more, hrequest⟩ := prefetchJob_request hfits
  rw [hrequest, dispatchRequest_eq hstart]
  by_cases hhttp : matchesCommand link "http://" = true
  · obtain ⟨hother, hparts⟩ := linkParts_append hostname hhttp
    have hauthority : 47 ∉ linkHost hostname link := by
      rw [linkHost, linkParts, if_neg hother]
      intro hmem
      have hend := List.mem_takeWhile_imp hmem
      simp [EndsAuthority] at hend
    have hparts' : linkHost hostname link ++ (linkParts hostname link).2 ⊆ link := by
      conv_rhs => rw [hparts]
      exact List.subset_append_right _ _
    have hrest : (linkParts hostname link).2.length ≤ maxUrlSize := by
      have hwhole := congrArg List.length hparts
      simp only [List.length_append] at hwhole
      omega
    have hlf' : lf ∉ linkHost hostname link ++ (linkParts hostname link).2 ↔ lf ∉ link := by
      have hscheme : lf ∉ text "http://" := by decide
      conv_rhs => rw [hparts, List.mem_append, not_or]
      exact (and_iff_right hscheme).symm
    have hnul' : 0 ∉ linkHost hostname link ++ (linkParts hostname link).2 :=
      fun hmem ↦ hlinkNul (hparts' hmem)
    rw [linkPath, parsedAs_iff locals.buffersFit rfl hnul' rfl hauthority hrest, hlf',
      and_congr_right_iff]
    exact fun _ ↦ ⟨fun h _ ↦ h, fun h ↦ h hhttp⟩
  · have hpath : matchesCommand link "/" = true := hstart.resolve_left hhttp
    have hparts : linkParts hostname link = (hostname, link) := if_pos hpath
    have hhead : link.head? = some 47 := by
      obtain ⟨rest, rfl⟩ := matchesCommand_iff.mp hpath
      rfl
    have hnul' : 0 ∉ hostname ++ link := by simp [hnul, hlinkNul]
    rw [linkHost, linkPath, hparts, parsedAs_iff locals.buffersFit rfl hnul' rfl hslash hlinkLength,
      List.mem_append, not_or]
    exact ⟨fun h ↦ ⟨h.1.2, fun h ↦ absurd h hhttp⟩, fun h ↦ ⟨⟨hlf, h.1⟩, hlength, hhead⟩⟩

/-! ## A link without a path -/

theorem foundLink (hnul : 0 ∉ link) (hquote : 34 ∉ link) (hlength : link.length + 6 < maxUrlSize) :
    FoundLink link := by
  let content := text "href=\"" ++ (link ++ [34])
  obtain ⟨tr, s, out, hrun⟩ :=
    exists_run scanning_total (findHref (content.length + 1) 0) ⟨content, 0⟩
  have hnul' : 0 ∉ content.drop 0 := by
    have hhref : (0 : UInt8) ∉ text "href=\"" := by decide
    simp [content, hnul, hhref]
  have hdrop : content.drop 0 = [] ++ (text "href=" ++ 34 :: (link ++ 34 :: [])) := rfl
  have hnil : ¬text "href=" <:+: [] := by decide
  have hchunk : ([] : List UInt8).length + 6 + link.length < maxUrlSize := by
    rw [List.length_nil]
    omega
  obtain ⟨rfl, -⟩ :=
    run_findHref_link hdrop hnul' hnil hquote hchunk (Nat.lt_succ_self _) hrun
  exact ⟨content, 0, _, _, tr, s, hrun⟩

/-- A page of the host `a`. -/
def hostRequest : AbsoluteRequest :=
  httpRequest (text "GET") (text "a") (text "/index") (text "HTTP/1.1\r") crlf (by decide)

theorem parsedHost_a : ParsedHost (text "a") := by
  have hversion : requestVersion hostRequest.version = .dotOne := by decide
  have hmethod : requestMethod hostRequest.line = some true := by decide
  let locals : Locals := ⟨false, .malformed, false, none⟩
  obtain ⟨left, out', hparse, hleaves⟩ := hostRequest.exists_parseRequest (.inr hversion) hmethod
    locals.buffersFit (by decide) (fun line hline h ↦ absurd h (completeLines_crlf line hline))
    (by decide) []
  exact ⟨hostRequest.bytes, [], left, locals, out', by decide, hparse,
    (hleaves.host_of_url rfl (by decide) completeLines_crlf).symm⟩

theorem prefetchJob_parsedAs_iff_b : ∃ locals : Locals,
    ParsedAs (prefetchJob (text "a") (text "/b")).request locals.parseOut
        (linkHost (text "a") (text "/b")) (linkPath (text "a") (text "/b")) ↔
      lf ∉ text "/b" ∧ (matchesCommand (text "/b") "http://" = true →
        (linkHost (text "a") (text "/b")).length ≤ maxNameLength ∧
          (linkParts (text "a") (text "/b")).2.head? = some 47) :=
  ⟨⟨false, .malformed, false, none⟩, prefetchJob_parsedAs_iff _ parsedHost_a (by decide)
    (foundLink (by decide) (by decide) (by decide)) (.inr (by decide))⟩

/-- The parser does not find the slash that ends the host. -/
theorem hostLink_not_parsed : ParsedHost (text "a") ∧ 47 ∉ text "a" ∧ FoundLink (text "http://a") ∧
    matchesCommand (text "http://a") "http://" = true ∧ ∀ locals : Locals,
      (∃ fault, parseRequestString (prefetchJob (text "a") (text "http://a")).request
        locals.parseOut = .error fault) ∧
      ¬ParsedAs (prefetchJob (text "a") (text "http://a")).request locals.parseOut
        (linkHost (text "a") (text "http://a")) (linkPath (text "a") (text "http://a")) := by
  have hlink : FoundLink (text "http://a") := foundLink (by decide) (by decide) (by decide)
  refine ⟨parsedHost_a, by decide, hlink, by decide, fun locals ↦ ?_⟩
  have hfits : LinkFits (text "a") (text "http://a") :=
    ⟨by decide, by decide, hlink.facts.1, hlink.facts.2⟩
  obtain ⟨more, hrequest⟩ := prefetchJob_request hfits
  have hunsafe : ¬RequestSafe (dispatchRequest (text "a") (text "http://a")) := by
    intro h
    have hfit := h (text "GET http://a HTTP/1.1\r") crlf (text "http://a") (by decide) (by decide)
      ⟨text "GET", text "HTTP/1.1\r", by decide, by decide, by decide, by decide, by decide,
        by decide⟩
    exact absurd (hfit.1 (by decide)).1 (by decide)
  rcases parseText_decides (t := dispatchRequest (text "a") (text "http://a")) locals.buffersFit
    with ⟨hsafe, -⟩ | ⟨-, fault, hbad⟩
  · exact absurd hsafe hunsafe
  · have hfault := parse_error_of_parseText more (by decide) hbad
    rw [← hrequest] at hfault
    refine ⟨⟨fault, hfault⟩, ?_⟩
    rintro ⟨left, out', hparse, -⟩
    cases hfault.symm.trans hparse

end HttpProxy
