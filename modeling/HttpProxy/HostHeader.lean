import HttpProxy.AbsoluteRequest

/-!
# What a Host line makes of the host

The value of a `Host` line is copied without its last byte, so the last byte of the host is
the one that the host of the url has in its place.
-/

namespace HttpProxy

open CString Fallible

variable {headers v rest left stale : List UInt8} {host : ℕ → UInt8} {r : AbsoluteRequest}
  {out out' : ParseOut} {status : Status}

/-- Header lines of which exactly one is a `Host` line, and its value. -/
structure HasHost (headers v : List UInt8) : Prop where
  lines : ∃ before after,
    completeLines headers = before ++ (text "Host: " ++ v ++ [cr]) :: after ∧
      ∀ line ∈ before ++ after, ¬IsHostLine line
  pos : v ≠ []
  length_le : v.length ≤ maxNameLength
  bytes : 0 ∉ v ∧ cr ∉ v ∧ lf ∉ v
  space : v.head? ≠ some space

theorem isHostLine_host (v : List UInt8) : IsHostLine (text "Host: " ++ v) := by
  rw [IsHostLine, matchesCommandCaseInsensitive, strncasecmpEq_iff, List.map_append]
  exact List.prefix_append _ _

theorem hostValue_host (hpos : v ≠ []) (hspace : v.head? ≠ some space) :
    hostValue (text "Host: " ++ v) = v := by
  have hname : text "Host: " ++ v = text "Host:" ++ space :: v := by
    have htext : text "Host: " = text "Host:" ++ [space] := by decide
    rw [htext, List.append_assoc, List.singleton_append]
  obtain ⟨c, v, rfl⟩ := List.exists_cons_of_ne_nil hpos
  have hc : c ≠ space := by simpa using hspace
  rw [hname, hostValue_append_cons (by decide), List.dropWhile_cons_of_pos (by decide),
    List.dropWhile_cons_of_neg (by simpa using hc)]

/-- Whatever the other lines are, the host keeps its byte in the last place of the value. -/
theorem HasHost.foldl_overwriteHost (h : HasHost headers v) :
    (completeLines headers).foldl overwriteHost host = fun i ↦
      if i + 1 < v.length then v.getD i 0 else if i = v.length then 0 else host i := by
  obtain ⟨before, after, hlines, hother⟩ := h.lines
  have hbefore : ∀ line ∈ before, ¬IsHostLine line := fun line hline ↦
    hother line (List.mem_append_left _ hline)
  have hafter : ∀ line ∈ after, ¬IsHostLine line := fun line hline ↦
    hother line (List.mem_append_right _ hline)
  have hvalue : hostValue (text "Host: " ++ (v ++ [cr])) = v ++ [cr] := by
    apply hostValue_host (by simp)
    obtain ⟨c, v, rfl⟩ := List.exists_cons_of_ne_nil h.pos
    exact h.space
  rw [hlines, List.foldl_append, List.foldl_cons, foldl_overwriteHost_of_forall_not hbefore,
    foldl_overwriteHost_of_forall_not hafter, List.append_assoc]
  funext i
  simp only [overwriteHost, if_neg (not_not.mpr (isHostLine_host _)), hvalue, List.length_append,
    List.length_singleton, Nat.add_right_cancel_iff]
  by_cases hlt : i + 1 < v.length
  · rw [if_pos (by omega), if_pos hlt, List.getD_append _ _ _ _ (by omega)]
  · rw [if_neg (by omega), if_neg hlt]

/-- A host with all bytes but the last of the value, and its end, is the value if it has the
last one as well. -/
theorem cstr_eq_value_iff {s : List UInt8} (hpos : v ≠ []) (hnul : 0 ∉ v)
    (hs : (s.getD · 0) = fun i ↦
      if i + 1 < v.length then v.getD i 0 else if i = v.length then 0 else host i) :
    cstr s 0 = v ↔ v.getLast? = some (host (v.length - 1)) := by
  have hlength := List.length_pos_iff.mpr hpos
  have hbyte (i : ℕ) := congrFun hs i
  have hvalue : v.getLast? = some (v.getD (v.length - 1) 0) := by
    rw [List.getLast?_eq_getElem?, List.getD_eq_getElem?_getD, List.getElem?_eq_getElem (by omega)]
    rfl
  have hlast : host (v.length - 1) = s.getD (v.length - 1) 0 := by
    rw [hbyte, if_neg (by omega), if_neg (by omega)]
  rw [hvalue, Option.some_inj, hlast, eq_comm (a := v.getD _ _)]
  have hend : s.getD v.length 0 = 0 := by rw [hbyte, if_neg (by omega), if_pos rfl]
  have hsame : cstr s 0 = v ↔ SameString (s.getD · 0) (v.getD · 0) := by
    rw [← cstr_eq_iff, cstr_eq_self hnul]
  rw [hsame]
  constructor
  · intro h
    refine h _ fun j hj ↦ ?_
    have hj : j + 1 < v.length := by omega
    simp only [hbyte, if_pos hj, List.getD_eq_getElem _ _ (show j < v.length by omega)]
    intro hzero
    exact hnul (hzero ▸ List.getElem_mem _)
  · intro h i hi
    rcases Nat.lt_trichotomy i v.length with hlt | rfl | hgt
    · rcases Nat.lt_or_ge (i + 1) v.length with hinside | hlast
      · simp only [hbyte, if_pos hinside]
      · obtain rfl : i = v.length - 1 := by omega
        exact h
    · exact hend.trans (List.getD_eq_default _ _ le_rfl).symm
    · exact absurd hend (hi v.length hgt)

/-- What the parser leaves is the value if and only if the byte in its last place, once the
host of the url is copied, is its last byte. -/
theorem hostname_eq_value_iff {isGet : Bool} (hv : HasHost r.headers v)
    (hgood : requestVersion r.version = .dotZero ∨ requestVersion r.version = .dotOne)
    (hmethod : requestMethod r.line = some isGet)
    (h : parseText r.bytes out = .ok (status, out')) :
    cstr out'.hostname 0 = v ↔
      v.getLast? = (r.host ++ 0 :: out.hostname.drop (r.host.length + 1))[v.length - 1]? := by
  have hhost := r.leaves_host hgood hmethod h
  rw [hv.foldl_overwriteHost] at hhost
  rw [cstr_eq_value_iff hv.pos hv.bytes.1 hhost, r.copiedHost_eq, List.getD_eq_getElem?_getD]
  cases (r.host ++ 0 :: out.hostname.drop (r.host.length + 1))[v.length - 1]? with
  | none =>
      apply iff_of_false (fun hlast ↦ hv.bytes.1 (List.mem_of_getLast? hlast))
      simpa using hv.pos
  | some c => rfl

/-- A `Host` line with a longer name than the url has. -/
def longerHostRequest : AbsoluteRequest :=
  httpRequest (text "GET") (text "a") (text "/") (text "HTTP/1.1\r")
    (text "Accept: *\r\nHost: bcd\r\n") (by decide)

theorem longerHostRequest_hasHost : HasHost longerHostRequest.headers (text "bcd") where
  lines := ⟨[text "Accept: *\r"], [], by decide, by
    simp only [IsHostLine]
    decide⟩
  pos := by decide
  length_le := by decide
  bytes := by decide
  space := by decide

theorem exists_parse_longerHostRequest :
    ∃ left out', parseRequestString (longerHostRequest.bytes ++ 0 :: []) emptyParseOut =
      .ok (.success, left, out') ∧ out'.version = .dotOne := by
  have hversion : requestVersion longerHostRequest.version = .dotOne := by decide
  have hmethod : requestMethod longerHostRequest.line = some true := by decide
  have hlines : ∀ line ∈ completeLines longerHostRequest.headers,
      IsHostLine line → HostLineFits line := by
    have hread : completeLines longerHostRequest.headers =
        [text "Accept: *\r", text "Host: bcd\r"] := by decide
    rw [hread]
    simp only [IsHostLine, HostLineFits]
    decide
  obtain ⟨left, out', hparse, hleaves⟩ := longerHostRequest.exists_parseRequest (.inr hversion)
    hmethod emptyParseOut_fits (by decide) hlines (by decide) []
  exact ⟨left, out', hparse, hleaves.version.trans hversion⟩

/-- With exactly one `Host` line the host is its value if and only if the buffer, once the host
of the url was copied into it, has the last byte of the value in its place. -/
theorem hostname_decoded_iff (hv : HasHost r.headers v) (hnul : 0 ∉ r.bytes)
    (h : parseRequestString (r.bytes ++ 0 :: rest) out = .ok (.success, left, out'))
    (hversion : out'.version = .dotZero ∨ out'.version = .dotOne) :
    cstr out'.hostname 0 = v ↔
      v.getLast? = (r.host ++ 0 :: out.hostname.drop (r.host.length + 1))[v.length - 1]? := by
  have hparse := parseText_of_parse hnul h
  obtain ⟨hgood, isGet, hmethod⟩ := r.accepted hparse hversion
  exact hostname_eq_value_iff hv hgood hmethod hparse

theorem longerHostRequest_decoded_iff : ∃ left out',
    parseRequestString (longerHostRequest.bytes ++ 0 :: []) emptyParseOut =
      .ok (.success, left, out') ∧
    (cstr out'.hostname 0 = text "bcd" ↔
      (text "bcd").getLast? = (text "a" ++ 0 :: emptyParseOut.hostname.drop 2)[2]?) := by
  obtain ⟨left, out', hparse, hversion⟩ := exists_parse_longerHostRequest
  exact ⟨left, out', hparse,
    hostname_decoded_iff longerHostRequest_hasHost (by decide) hparse (.inr hversion)⟩

/-- The host of the url has no third byte, so that of the value is lost. -/
theorem longerHostRequest_not_decoded : ∃ left out',
    parseRequestString (longerHostRequest.bytes ++ 0 :: []) emptyParseOut =
      .ok (.success, left, out') ∧ out'.version = .dotOne ∧
    HasHost longerHostRequest.headers (text "bcd") ∧ cstr out'.hostname 0 ≠ text "bcd" := by
  obtain ⟨left, out', hparse, hversion⟩ := exists_parse_longerHostRequest
  refine ⟨left, out', hparse, hversion, longerHostRequest_hasHost, ?_⟩
  have htext := parseText_of_parse (by decide) hparse
  have hmethod : requestMethod longerHostRequest.line = some true := by decide
  rw [ne_eq, hostname_eq_value_iff longerHostRequest_hasHost (.inr (by decide)) hmethod htext]
  decide

end HttpProxy
