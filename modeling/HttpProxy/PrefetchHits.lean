import HttpProxy.CacheKeys
import HttpProxy.CacheMemory
import HttpProxy.PrefetchDispatch

/-!
# What prefetching is for

A prefetch job for a link and a client who asks for the link look the same url up.  So once the
page of a link has been prefetched, a client who asks for it within `CACHE_TTL` is answered from
the cache, with what the server sent for the prefetch job.
-/

namespace HttpProxy

open CString Fallible Interaction Protocol Transition

variable {ttl : ℤ} {md5sum : List UInt8 → List UInt8} {hostname link rest left left' : List UInt8}
  {line : List UInt8} {lines : List (List UInt8)} {host : ℕ → UInt8} {r client : AbsoluteRequest}
  {locals locals' : Locals} {status status' : Status} {out out' : ParseOut}

/-- The url that is looked up for a request. -/
def ParseOut.lookupUrl (out : ParseOut) : List UInt8 := cstr out.hostname 0 ++ cstr out.path 0

/-- The `Host` lines of a request, if it has any, name the host of its url. -/
def NamesOwnHost (r : AbsoluteRequest) : Prop :=
  ∀ line ∈ completeLines r.headers, IsHostLine line → hostValue line = r.host ++ [cr]

/-- A request of a client for the page of a link. -/
structure AsksFor (client : AbsoluteRequest) (hostname link : List UInt8) : Prop where
  string : 0 ∉ client.bytes
  host : client.host = linkHost hostname link
  path : client.path = linkPath hostname link
  lines : NamesOwnHost client

/-! ## The url of a request -/

/-- A host that is written over itself stays as it is. -/
theorem overwriteHost_self {v : List UInt8} (h : IsHostLine line → hostValue line = v ++ [cr]) :
    overwriteHost (v.getD · 0) line = (v.getD · 0) := by
  funext i
  unfold overwriteHost
  split
  · rfl
  next hline =>
    rw [h (not_not.mp hline), List.length_append, List.length_singleton]
    split
    next hlt => rw [List.getD_append _ _ _ _ (by omega)]
    next =>
      split
      next hend => rw [List.getD_eq_default _ _ (by omega)]
      next => rfl

theorem foldl_overwriteHost_self {v : List UInt8}
    (h : ∀ line ∈ lines, IsHostLine line → hostValue line = v ++ [cr]) :
    lines.foldl overwriteHost (v.getD · 0) = (v.getD · 0) := by
  induction lines with
  | nil => rfl
  | cons line lines ih =>
      rw [List.foldl_cons, overwriteHost_self (h line List.mem_cons_self)]
      exact ih fun l hl ↦ h l (List.mem_cons_of_mem _ hl)

/-- A request that names its own host is looked up under it. -/
theorem lookupUrl_eq (hnul : 0 ∉ r.bytes) (hlines : NamesOwnHost r)
    (hlength : r.path.length ≤ maxUrlSize)
    (h : parseRequestString (r.bytes ++ 0 :: rest) locals.parseOut = .ok (status, left, out))
    (haccepted : Accepted status out) :
    out.lookupUrl = r.host ++ withoutLastSlash r.path := by
  obtain ⟨rfl, hversion⟩ := haccepted
  have htext := parseText_of_parse hnul h
  obtain ⟨hgood, isGet, hmethod⟩ := r.accepted htext hversion
  have hpath : 0 ∉ r.path := fun hmem ↦ hnul (r.line_subset (r.path_subset hmem))
  have hhost : 0 ∉ r.host := fun hmem ↦ hnul (r.line_subset (r.host_subset hmem))
  have hleaves := r.leaves hgood hmethod locals.buffersFit.path_last hpath htext
  have hzero : locals.parseOut.hostname = List.replicate (maxNameLength + 1) 0 := rfl
  have hbytes := hleaves.host
  rw [r.copiedHost_zeroed hzero, foldl_overwriteHost_self hlines] at hbytes
  rw [ParseOut.lookupUrl, cstr_of_getD hbytes hhost, hleaves.path, List.take_of_length_le hlength]

/-! ## The url of a link -/

variable (hhost : ParsedHost hostname) (hslash : 47 ∉ hostname) (hlink : FoundLink link)
  (hstart : Prefetched link) (hrequestable : Requestable hostname link)
include hhost hslash hlink hstart hrequestable

theorem linkPath_eq : linkPath hostname link = (linkParts hostname link).2 :=
  if_neg (linkParts_fit hhost hslash hlink hstart hrequestable).rest_ne

theorem prefetchJob_lookupUrl
    (h : parseRequestString (prefetchJob hostname link).request locals.parseOut =
      .ok (status, left, out)) :
    out.lookupUrl = linkHost hostname link ++ withoutLastSlash (linkPath hostname link) := by
  have hfit := linkParts_fit hhost hslash hlink hstart hrequestable
  obtain ⟨more, hrequest⟩ := prefetchJob_bytes hhost hlink hstart
  obtain ⟨_, _, hparse, haccepted, -⟩ :=
    prefetchJob_parsedAs hhost hslash hlink hstart hrequestable locals
  cases hparse.symm.trans h
  have hnul := prefetchRequest_notMem hfit.string
  rw [hrequest] at h
  obtain ⟨r, hbytes, -⟩ := exists_leaves hnul locals.buffersFit h haccepted.2
  obtain ⟨hheaders, hparts⟩ := prefetchRequest_parts hfit.line hbytes
  obtain ⟨hrhost, hrpath⟩ :=
    (key_injective r.host_slash hfit.host_slash r.path_slash hfit.rest_slash).mp hparts
  have hlines : NamesOwnHost r := fun line hline hname ↦
    absurd hname (completeLines_crlf line (hheaders ▸ hline))
  rw [hbytes] at h hnul
  rw [lookupUrl_eq hnul hlines (hrpath ▸ hfit.rest_length) h haccepted, hrhost, hrpath,
    linkPath_eq hhost hslash hlink hstart hrequestable]

/-- A client who asks for a link looks up what the prefetch job has looked up. -/
theorem prefetchJob_sameUrl (hclient : AsksFor client hostname link)
    (hjob : parseRequestString (prefetchJob hostname link).request locals.parseOut =
      .ok (status, left, out))
    (hparse : parseRequestString (client.bytes ++ 0 :: rest) locals'.parseOut =
      .ok (status', left', out'))
    (haccepted : Accepted status' out') : out'.lookupUrl = out.lookupUrl := by
  have hfit := linkParts_fit hhost hslash hlink hstart hrequestable
  have hpath := linkPath_eq hhost hslash hlink hstart hrequestable
  rw [prefetchJob_lookupUrl hhost hslash hlink hstart hrequestable hjob,
    lookupUrl_eq hclient.string hclient.lines ?_ hparse haccepted, hclient.host, hclient.path]
  rw [hclient.path, hpath]
  exact hfit.rest_length

omit hhost hslash hlink hstart hrequestable

/-- A client of the page that the link `/` on the host `a` leads to. -/
def startPageRequest : AbsoluteRequest :=
  httpRequest (text "GET") (text "a") (text "/") (text "HTTP/1.0\r")
    (text "Accept: *\r\nHost: a\r\n\r\n") (by decide)

theorem startPageRequest_asksFor : AsksFor startPageRequest (text "a") (text "/") := by
  refine ⟨by decide, by decide, by decide, ?_⟩
  simp only [NamesOwnHost, IsHostLine]
  decide

theorem exists_parse_startPageRequest (locals : Locals) :
    ∃ left out, parseRequestString (startPageRequest.bytes ++ 0 :: []) locals.parseOut =
      .ok (.success, left, out) ∧ Accepted .success out := by
  have hversion : requestVersion startPageRequest.version = .dotZero := by decide
  have hmethod : requestMethod startPageRequest.line = some true := by decide
  have hlines : ∀ line ∈ completeLines startPageRequest.headers,
      IsHostLine line → HostLineFits line := by
    simp only [IsHostLine, HostLineFits]
    decide
  obtain ⟨left, out, hparse, hleaves⟩ := startPageRequest.exists_parseRequest (.inl hversion)
    hmethod locals.buffersFit (by decide) hlines (by decide) []
  exact ⟨left, out, hparse, hleaves.accepted (.inl hversion)⟩

end HttpProxy
