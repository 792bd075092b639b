import HttpProxy.AbsoluteRequest
import HttpProxy.BlockedLines
import HttpProxy.Lib.LetterCase

/-!
# The letter case of a hostname

The parser copies the letters of a host as they are sent, and the block table compares them as
they are.  So a host is looked up in the spelling of the client, and in no other.
-/

namespace HttpProxy

open CString Interaction Protocol

variable {t t' hostname hostname' : List UInt8} {out out' : ParseOut} {table : BlockTable}
  {answer : ResolverAnswer}

/-! ## The parser -/

theorem completeLines_lower (t : List UInt8) :
    completeLines (lower t) = (completeLines t).map lower := by
  induction t with
  | nil => rfl
  | cons c t ih =>
      have hc : toLower c = lf ↔ c = lf := toLower_eq_iff (by decide)
      simp only [lower_cons, completeLines, hc, ih]
      split
      next => simp
      next => cases completeLines t <;> simp

theorem isHostLine_lower (line : List UInt8) : IsHostLine (lower line) ↔ IsHostLine line := by
  rw [IsHostLine, IsHostLine, matchesCommandCaseInsensitive, matchesCommandCaseInsensitive,
    strncasecmpEq_lower]

theorem hostValue_lower (line : List UInt8) : hostValue (lower line) = lower (hostValue line) := by
  have hspace : space < 65 := by decide
  rw [hostValue, dropWhile_ne_lower hspace, dropWhile_eq_lower hspace, hostValue]

theorem overwriteHost_lower (host : ℕ → UInt8) (line : List UInt8) :
    overwriteHost (fun i ↦ toLower (host i)) (lower line) =
      fun i ↦ toLower (overwriteHost host line i) := by
  have hzero : toLower 0 = 0 := toLower_of_lt (by decide)
  funext i
  simp only [overwriteHost, isHostLine_lower, hostValue_lower, length_lower, getD_lower]
  split
  · rfl
  · split
    · rfl
    · split
      · exact hzero.symm
      · rfl

/-- Whatever a lower-case request would leave, the request leaves up to case. -/
theorem foldl_overwriteHost_lower (host : ℕ → UInt8) (lines : List (List UInt8)) :
    (lines.map lower).foldl overwriteHost (fun i ↦ toLower (host i)) =
      fun i ↦ toLower (lines.foldl overwriteHost host i) := by
  rw [List.foldl_map]
  exact List.foldl_hom (fun (host : ℕ → UInt8) i ↦ toLower (host i)) overwriteHost_lower

/-- The request in lower case, with the parts in lower case. -/
def AbsoluteRequest.lowered (r : AbsoluteRequest) : AbsoluteRequest where
  method := lower r.method
  scheme := lower r.scheme
  host := lower r.host
  path := lower r.path
  version := lower r.version
  headers := lower r.headers
  method_space := (mem_lower_iff (by decide)).not.mpr r.method_space
  scheme_http := (lower_lower r.scheme).trans r.scheme_http
  host_slash := (mem_lower_iff (by decide)).not.mpr r.host_slash
  path_slash := by
    rw [lower, List.head?_map, r.path_slash]
    rfl
  version_space := (mem_lower_iff (by decide)).not.mpr r.version_space
  line_lf := by
    have hspace : toLower space = space := toLower_of_lt (by decide)
    have hline := (mem_lower_iff (show lf < 65 by decide)).not.mpr r.line_lf
    simpa only [lower_append, lower_cons, hspace] using hline

theorem AbsoluteRequest.lowered_bytes (r : AbsoluteRequest) : r.lowered.bytes = lower r.bytes := by
  have hspace : toLower space = space := toLower_of_lt (by decide)
  have hlf : toLower lf = lf := toLower_of_lt (by decide)
  simp [AbsoluteRequest.bytes, AbsoluteRequest.line, AbsoluteRequest.url,
    AbsoluteRequest.lowered, hspace, hlf]

/-- Requests that differ only in the case of their letters have hosts that do, and so have
their header lines. -/
theorem AbsoluteRequest.sameLetters {r r' : AbsoluteRequest} (h : SameLetters r.bytes r'.bytes) :
    SameLetters r.host r'.host ∧ SameLetters r.headers r'.headers := by
  have hbytes : r.lowered.bytes = r'.lowered.bytes := by
    rw [r.lowered_bytes, h, r'.lowered_bytes]
  have hhost := (AbsoluteRequest.parts_unique hbytes).2.2.1
  have hheaders := (first_split_unique hbytes r.lowered.line_notMem r'.lowered.line_notMem).2
  exact ⟨hhost, hheaders⟩

/-- The bytes of the hostname, lowered, are those that the request in lower case leaves. -/
theorem AbsoluteRequest.Leaves.lowered_host {r : AbsoluteRequest} (h : r.Leaves out out')
    (hzero : out.hostname = List.replicate (maxNameLength + 1) 0) :
    (fun i ↦ toLower (out'.hostname.getD i 0)) =
      (completeLines (lower r.headers)).foldl overwriteHost ((lower r.host).getD · 0) := by
  have hbytes := h.host
  rw [r.copiedHost_zeroed hzero] at hbytes
  have hhost : ((lower r.host).getD · 0) = fun i ↦ toLower (r.host.getD i 0) :=
    funext (getD_lower r.host)
  rw [completeLines_lower, hhost, foldl_overwriteHost_lower, ← hbytes]

/-- The parser accepts the request, with this hostname. -/
def RequestsHost (t hostname : List UInt8) : Prop :=
  ∃ rest locals status left out,
    parseRequestString (t ++ 0 :: rest) (Locals.parseOut locals) = .ok (status, left, out) ∧
      Accepted status out ∧ cstr out.hostname 0 = hostname

/-- Accepted requests that differ only in the case of their letters have such hostnames. -/
theorem RequestsHost.sameLetters (ht : 0 ∉ t) (hletters : SameLetters t t')
    (h : RequestsHost t hostname) (h' : RequestsHost t' hostname') :
    SameLetters hostname hostname' := by
  have ht' : 0 ∉ t' := (hletters.mem_iff (by decide)).not.mp ht
  obtain ⟨rest, locals, _, left, out, hparse, ⟨rfl, hversion⟩, rfl⟩ := h
  obtain ⟨rest', locals', _, left', out', hparse', ⟨rfl, hversion'⟩, rfl⟩ := h'
  obtain ⟨r, rfl, hleaves⟩ := exists_leaves ht (buffersFit_of_zeroed rfl rfl) hparse hversion
  obtain ⟨r', rfl, hleaves'⟩ := exists_leaves ht' (buffersFit_of_zeroed rfl rfl) hparse' hversion'
  obtain ⟨hhost, hheaders⟩ := AbsoluteRequest.sameLetters hletters
  have hlowered := hleaves.lowered_host rfl
  rw [hhost, hheaders, ← hleaves'.lowered_host rfl] at hlowered
  exact .of_getD (congrFun hlowered)

/-! ## The status of the host -/

/-- `resolve_host` returns the same status for both hostnames. -/
def SameStatus (table : BlockTable) (answer : ResolverAnswer) (hostname hostname' : List UInt8) :
    Prop :=
  ∀ tr tr' outcome outcome',
    (resolverAnswers answer).Run () (resolveHost table hostname) tr () outcome →
      (resolverAnswers answer).Run () (resolveHost table hostname') tr' () outcome' →
        outcome.map Prod.fst = outcome'.map Prod.fst

theorem sameStatus_iff_resolvedStatus : SameStatus table answer hostname hostname' ↔
    resolvedStatus table hostname answer = resolvedStatus table hostname' answer := by
  constructor
  · intro h
    obtain ⟨tr, ⟨⟩, outcome, hrun⟩ :=
      exists_run (resolverAnswers_total answer) (resolveHost table hostname) ()
    obtain ⟨tr', ⟨⟩, outcome', hrun'⟩ :=
      exists_run (resolverAnswers_total answer) (resolveHost table hostname') ()
    have hsame := h tr tr' outcome outcome' hrun hrun'
    rw [run_resolveHost_status hrun, run_resolveHost_status hrun'] at hsame
    exact Except.ok.inj hsame
  · intro h tr tr' outcome outcome' hrun hrun'
    rw [run_resolveHost_status hrun, run_resolveHost_status hrun', h]

/-- The status depends on the hostname only by its name being listed or not, and not even by
that if each address is blocked. -/
theorem sameStatus_iff : SameStatus table answer hostname hostname' ↔
    blockTableCheck table (splitHostname hostname).1 =
        blockTableCheck table (splitHostname hostname').1 ∨
      AddressesBlocked table answer := by
  rw [sameStatus_iff_resolvedStatus, resolvedStatus, resolvedStatus]
  by_cases haddresses : AddressesBlocked table answer
  · simp [haddresses]
  · have hother : (if answer = none then HostStatus.notFound else .ok) ≠ .blocked := by
      split <;> simp
    simp only [haddresses, or_false]
    cases blockTableCheck table (splitHostname hostname).1 <;>
      cases blockTableCheck table (splitHostname hostname').1 <;> simp [hother, hother.symm]

/-! ## Other spellings -/

/-- The name of a hostname can be written in another way. -/
theorem exists_respelled {name : List UInt8} (h : SameLetters (splitHostname hostname).1 name) :
    ∃ hostname', SameLetters hostname hostname' ∧ (splitHostname hostname').1 = name := by
  have hcolon : 58 ∉ name := (h.mem_iff (by decide)).not.mp (colon_notMem_name hostname)
  rw [splitHostname_fst] at h
  by_cases hport : 58 ∈ hostname
  · obtain ⟨before, port, rfl, hbefore⟩ := List.eq_append_cons_of_mem hport
    rw [takeWhile_ne_append_cons hbefore] at h
    refine ⟨name ++ 58 :: port, h.append_right _, ?_⟩
    rw [splitHostname_fst, takeWhile_ne_append_cons hcolon]
  · rw [takeWhile_ne_of_notMem hport] at h
    exact ⟨name, h, by rw [splitHostname_fst, takeWhile_ne_of_notMem hcolon]⟩

/-- A host has the same status in all spellings if and only if all of them are listed or none
is, or each of its addresses is blocked. -/
theorem forall_sameStatus_iff :
    (∀ hostname', SameLetters hostname hostname' → SameStatus table answer hostname hostname') ↔
      (∀ name, SameLetters (splitHostname hostname).1 name →
        blockTableCheck table (splitHostname hostname).1 = blockTableCheck table name) ∨
          AddressesBlocked table answer := by
  simp only [sameStatus_iff]
  by_cases haddresses : AddressesBlocked table answer
  · simp [haddresses]
  · simp only [haddresses, or_false]
    constructor
    · intro h name hname
      obtain ⟨hostname', hletters, rfl⟩ := exists_respelled hname
      exact h hostname' hletters
    · intro h hostname' hletters
      apply h
      have hcolon : (58 : UInt8) < 65 := by decide
      rw [SameLetters, splitHostname_fst, splitHostname_fst, ← takeWhile_ne_lower hcolon,
        hletters, takeWhile_ne_lower hcolon]

/-- Blocking does not depend on letter case where both spellings of the name are listed or
neither is, and where each address is blocked; and two requests that differ only in the case of
their letters ask for two spellings of one host. -/
theorem caseBlind_iff (table : BlockTable) (answer : ResolverAnswer) :
    (∀ hostname hostname', SameLetters hostname hostname' →
      (SameStatus table answer hostname hostname' ↔
        blockTableCheck table (splitHostname hostname).1 =
            blockTableCheck table (splitHostname hostname').1 ∨
          AddressesBlocked table answer)) ∧
    (∀ hostname,
      (∀ hostname', SameLetters hostname hostname' →
        SameStatus table answer hostname hostname') ↔
          (∀ name, SameLetters (splitHostname hostname).1 name →
            blockTableCheck table (splitHostname hostname).1 = blockTableCheck table name) ∨
              AddressesBlocked table answer) ∧
    ∀ t t' hostname hostname', 0 ∉ t → SameLetters t t' → RequestsHost t hostname →
      RequestsHost t' hostname' → SameLetters hostname hostname' :=
  ⟨fun _ _ _ ↦ sameStatus_iff, fun _ ↦ forall_sameStatus_iff,
    fun _ _ _ _ ht hletters h h' ↦ h.sameLetters ht hletters h'⟩

theorem caseBlind_iff_unlisted :
    SameStatus [text "facebook.com"] none (text "Facebook.com") (text "FACEBOOK.com") :=
  ((caseBlind_iff [text "facebook.com"] none).1 _ _ (by decide)).mpr (.inl (by decide))

theorem RequestsHost.of_map (locals : Locals)
    (h : (parseRequestString (t ++ [0]) locals.parseOut).map
      (fun parsed ↦ (parsed.1, parsed.2.2.version, cstr parsed.2.2.hostname 0)) =
        .ok (.success, .dotOne, hostname)) : RequestsHost t hostname := by
  cases hparse : parseRequestString (t ++ [0]) locals.parseOut with
  | error fault =>
      rw [hparse] at h
      cases h
  | ok parsed =>
      obtain ⟨status, left, out⟩ := parsed
      rw [hparse] at h
      obtain ⟨hstatus, hversion, hhost⟩ : status = .success ∧ out.version = .dotOne ∧
          cstr out.hostname 0 = hostname := by simpa [Except.map] using h
      exact ⟨[], locals, status, left, out, hparse, ⟨hstatus, .inr hversion⟩, hhost⟩

/-- A listed host is reached under another spelling. -/
theorem listed_host_reached :
    ∃ (table : BlockTable) (addresses : { addresses : List Address // addresses ≠ [] })
      (tr tr' : Trace),
      loadBlockList (fun _ ↦ clearedName) (some (text "facebook.com\n")) [] =
        .ok (.success, table) ∧
      RequestsHost (text "GET http://facebook.com/ HTTP/1.1\r\n\r\n") (text "facebook.com") ∧
      RequestsHost (text "GET http://Facebook.com/ HTTP/1.1\r\n\r\n") (text "Facebook.com") ∧
      SameLetters (text "facebook.com") (text "Facebook.com") ∧
      (resolverAnswers (some addresses)).Run () (resolveHost table (text "facebook.com")) tr ()
        (.ok (.blocked, [])) ∧
      (resolverAnswers (some addresses)).Run () (resolveHost table (text "Facebook.com")) tr' ()
        (.ok (.ok, addresses.val)) ∧
      ¬SameStatus table (some addresses) (text "facebook.com") (text "Facebook.com") := by
  let locals : Locals := ⟨false, .malformed, false, none⟩
  let addresses : { addresses : List Address // addresses ≠ [] } :=
    ⟨[⟨157, 240, 22, 35, 80⟩], by simp⟩
  have hloaded : loadBlockList (fun _ ↦ clearedName) (some (text "facebook.com\n")) [] =
      .ok (.success, [text "facebook.com"]) := by decide +kernel
  have hrun : (resolverAnswers (some addresses)).Run ()
      (resolveHost [text "facebook.com"] (text "facebook.com")) [] () (.ok (.blocked, [])) := by
    have hlisted : blockTableCheck [text "facebook.com"] (splitHostname (text "facebook.com")).1 =
        true := by decide
    rw [resolveHost, if_pos hlisted]
    exact .ret _
  have hrun' : (resolverAnswers (some addresses)).Run ()
      (resolveHost [text "facebook.com"] (text "Facebook.com"))
        [⟨.getaddrinfo (text "Facebook.com") (text "http"), some addresses⟩] ()
          (.ok (.ok, addresses.val)) := by
    have hsplit : splitHostname (text "Facebook.com") = (text "Facebook.com", none) := by decide
    have hlisted : ¬blockTableCheck [text "facebook.com"] (text "Facebook.com") = true := by decide
    have hnone : ∀ a ∈ ([] : List Address),
        blockTableCheck [text "facebook.com"] (inetNtop a) = true := by simp
    have hfree : checkAddresses [text "facebook.com"] addresses.val addresses.val =
        .ret (.ok, addresses.val) := checkAddresses_skip hnone (by decide)
    rw [resolveHost, hsplit, if_neg hlisted, getaddrinfo_bind]
    refine run_call.mpr ⟨some addresses, [], ?_, rfl, ?_⟩
    · exact Eq.refl (some addresses)
    · simp only [hfree]
      exact .ret _
  refine ⟨_, addresses, _, _, hloaded, .of_map locals (by decide +kernel),
    .of_map locals (by decide +kernel), by decide, hrun, hrun', fun hsame ↦ ?_⟩
  cases hsame _ _ _ _ hrun hrun'

end HttpProxy
