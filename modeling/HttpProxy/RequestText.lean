import HttpProxy.Lib.Fallible
import HttpProxy.Parsing

/-!
# The request parser on text

`parse_request_string` moves pointers through one buffer.  Here the same computation is
written on the text of the request, line by line, and the two agree on every
NUL-terminated request.
-/

namespace HttpProxy

open CString

/-- The lines of a text that are ended by a line feed, without it. -/
def completeLines : List UInt8 → List (List UInt8)
  | [] => []
  | c :: cs =>
      if c = lf then [] :: completeLines cs
      else match completeLines cs with
        | [] => []
        | line :: lines => (c :: line) :: lines

/-- What follows the first run of spaces of a header line, its carriage return
included. -/
def hostValue (line : List UInt8) : List UInt8 :=
  (line.dropWhile (· != space)).dropWhile (· == space)

/-- A `Host` line takes two bytes less than its value and puts the NUL one byte later
than it would have to. -/
def lineHost (line hostname : List UInt8) : Except Fault (List UInt8) :=
  copyName hostname (hostValue line) ((hostValue line).length - 2) ((hostValue line).length - 1)

def headerLine (out : ParseOut) (line : List UInt8) : Except Fault ParseOut :=
  if matchesCommandCaseInsensitive line "Proxy-Connection: keep-alive" then
    .ok { out with proxyKeepAlive := true }
  else if matchesCommandCaseInsensitive line "Host: " then do
    let hostname ← lineHost line out.hostname
    .ok { out with hostname := hostname }
  else .ok out

def applyUrl (url : List UInt8) (out : ParseOut) : Except Fault ParseOut :=
  if !matchesCommandCaseInsensitive url "http://" then .ok { out with version := .malformed }
  else
    match (url.drop 7).idxOf? 47 with
    | none => .error .nullPointer
    | some n => do
        let hostname ← copyName out.hostname (url.drop 7) n n
        let path ← copyChecked out.path ((url.drop 7).drop n) maxUrlSize
        let path ← stripLastSlash path
        .ok { out with hostname := hostname, path := path }

/-- The url and the header lines of a request whose version and method are known. -/
def parseUrlText (line headers : List UInt8) (lastSpace : ℕ) (out : ParseOut) :
    Except Fault (Status × ParseOut) :=
  match line.idxOf? space with
  | none => .error .nullPointer
  | some firstSpace =>
      if firstSpace + 1 ≥ lastSpace then .ok (.success, { out with version := .malformed })
      else do
        let out ← applyUrl ((line.take lastSpace).drop (firstSpace + 1)) out
        let out ← (completeLines headers).foldlM headerLine { out with proxyKeepAlive := false }
        .ok (.success, out)

def parseLineText (line headers : List UInt8) (out : ParseOut) :
    Except Fault (Status × ParseOut) :=
  match lastIdxOf? line space with
  | none => .ok (.success, { out with version := .malformed })
  | some lastSpace =>
      let version := requestVersion (line.drop (lastSpace + 1))
      if version = .malformed ∨ version = .notSupported then
        .ok (.success, { out with version := version })
      else
        match requestMethod line with
        | none => .ok (.success, { out with version := .malformed })
        | some isGet =>
            parseUrlText line headers lastSpace { out with version := version, isGet := isGet }

/-- `parse_request_string` on the text of the request. -/
def parseText (t : List UInt8) (out : ParseOut) : Except Fault (Status × ParseOut) :=
  match t.idxOf? lf with
  | none => .ok (.fail, out)
  | some endOfFirstLine =>
      parseLineText (t.take endOfFirstLine) (t.drop (endOfFirstLine + 1)) out

/-! ## Lines -/

variable {s t line headers rest : List UInt8} {p fuel : ℕ} {out : ParseOut}

theorem completeLines_append (h : lf ∉ line) :
    completeLines (line ++ lf :: rest) = line :: completeLines rest := by
  induction line with
  | nil => simp [completeLines]
  | cons c line ih =>
      have hc : c ≠ lf := by
        rintro rfl
        simp at h
      have hline : lf ∉ line := fun hmem ↦ h (List.mem_cons_of_mem _ hmem)
      simp [completeLines, hc, ih hline]

theorem completeLines_of_notMem (h : lf ∉ line) : completeLines line = [] := by
  induction line with
  | nil => rfl
  | cons c line ih =>
      have hc : c ≠ lf := by
        rintro rfl
        simp at h
      have hline : lf ∉ line := fun hmem ↦ h (List.mem_cons_of_mem _ hmem)
      simp [completeLines, hc, ih hline]

theorem completeLines_notMem (t : List UInt8) : ∀ line ∈ completeLines t, lf ∉ line := by
  induction t with
  | nil => simp [completeLines]
  | cons c t ih =>
      unfold completeLines
      split
      next => exact List.forall_mem_cons.mpr ⟨List.not_mem_nil, ih⟩
      next hc =>
        split
        next => simp
        next line lines hlines =>
          rw [hlines] at ih
          obtain ⟨hline, hrest⟩ := List.forall_mem_cons.mp ih
          refine List.forall_mem_cons.mpr ⟨?_, hrest⟩
          simp [hline, Ne.symm hc]

theorem completeLines_subset (t : List UInt8) : ∀ line ∈ completeLines t, line ⊆ t := by
  induction t with
  | nil => simp [completeLines]
  | cons c t ih =>
      have hlines : ∀ line ∈ completeLines t, line ⊆ c :: t := fun line hline ↦
        List.subset_cons_of_subset c (ih line hline)
      unfold completeLines
      split
      next => exact List.forall_mem_cons.mpr ⟨List.nil_subset _, hlines⟩
      next =>
        split
        next => simp
        next line lines heq =>
          rw [heq] at hlines ih
          obtain ⟨hline, hrest⟩ := List.forall_mem_cons.mp hlines
          exact List.forall_mem_cons.mpr ⟨List.cons_subset.mpr ⟨List.mem_cons_self, hline⟩, hrest⟩

/-- Lines without a line feed, each ended by CR and LF, are the lines of the whole. -/
theorem completeLines_flatMap {lines : List (List UInt8)} (h : ∀ line ∈ lines, lf ∉ line) :
    completeLines (lines.flatMap (· ++ crlf)) = lines.map (· ++ [cr]) := by
  induction lines with
  | nil => rfl
  | cons line lines ih =>
      have hline : lf ∉ line ++ [cr] := by
        simpa [cr, lf] using h line List.mem_cons_self
      have hsplit : (line :: lines).flatMap (· ++ crlf) =
          (line ++ [cr]) ++ lf :: lines.flatMap (· ++ crlf) := by
        simp [crlf, text, cr, lf]
      rw [hsplit, completeLines_append hline, ih fun l hl ↦ h l (List.mem_cons_of_mem _ hl),
        List.map_cons]

theorem matchesCommandCaseInsensitive_line (command : String)
    (h : toLower lf ∉ (text command).map toLower) :
    matchesCommandCaseInsensitive (line ++ lf :: rest) command =
      matchesCommandCaseInsensitive line command :=
  strncasecmpEq_append_cons h

theorem space_mem_of_host (h : matchesCommandCaseInsensitive line "Host: " = true) :
    space ∈ line := by
  have hpre := strncasecmpEq_iff.mp h
  have hmem : (32 : UInt8) ∈ line.map toLower := hpre.subset (by decide)
  obtain ⟨c, hc, hlower⟩ := List.mem_map.mp hmem
  have : c = 32 := toLower_eq_self_of_toLower_lt hlower (by decide)
  rwa [this] at hc

/-! ## The header lines -/

theorem skipSpaces_eq (s : List UInt8) (p : ℕ) :
    skipSpaces s p = p + ((cstr s p).takeWhile (· == space)).length := by
  have h : (fun c : UInt8 ↦ decide ((c == space) = true ∧ decide (c ≠ 0) = true)) =
      (· == space) := by
    funext c
    by_cases hc : c = space
    · subst hc
      decide
    · simp [hc]
  rw [cstr, List.takeWhile_takeWhile, h]
  rfl

/-- A copy that stays inside its buffer, and what it leaves there. -/
theorem copyName_ok {dst src dst' : List UInt8} {n i : ℤ} (h : copyName dst src n i = .ok dst') :
    (0 ≤ n ∧ n ≤ dst.length) ∧ (0 ≤ i ∧ i < dst.length) ∧
      dst' = (strncpy dst src n.toNat).set i.toNat 0 := by
  obtain ⟨copied, hcopied, hset⟩ := Fallible.bind_eq_ok.mp h
  unfold copyChecked at hcopied
  unfold terminateChecked at hset
  split at hcopied
  next => cases hcopied
  next hn =>
    split at hcopied
    next => cases hcopied
    next hfits =>
      split at hset
      next => cases hset
      next hi =>
        cases hcopied
        cases hset
        rw [length_strncpy (by omega)] at hi
        exact ⟨by omega, by omega, rfl⟩

theorem copyChecked_append {dst src : List UInt8} {n : ℤ} (h : n ≤ src.length) :
    copyChecked dst (src ++ rest) n = copyChecked dst src n := by
  unfold copyChecked
  split
  · rfl
  · split
    · rfl
    · rw [strncpy_append (by omega)]

theorem hostValue_append_cons {a b : List UInt8} (ha : space ∉ a) :
    hostValue (a ++ space :: b) = (space :: b).dropWhile (· == space) := by
  rw [hostValue, List.dropWhile_append_of_pos]
  · simp
  · intro c hc
    simp only [bne_iff_ne, ne_eq]
    rintro rfl
    exact ha hc

/-- Inside its line the `Host` value is what the pointers delimit. -/
theorem captureHost_eq {hostname : List UInt8} (hs : cstr s p = line ++ lf :: rest)
    (hspace : space ∈ line) :
    captureHost s p (p + line.length) hostname = lineHost line hostname := by
  obtain ⟨a, b, rfl, ha⟩ := List.eq_append_cons_of_mem hspace
  have hs' : cstr s p = a ++ space :: (b ++ lf :: rest) := by simpa using hs
  have hsearch := strchr_of_append_cons (by decide) hs' ha
  have hstring : cstr s (p + a.length) = (space :: b) ++ lf :: rest := by
    simpa using cstr_add_of_append hs'
  rw [lineHost, hostValue_append_cons ha]
  generalize space :: b = u at hstring ⊢
  have hlf : (lf == space) = false := by decide
  have hskip : skipSpaces s (p + a.length) =
      p + a.length + (u.takeWhile (· == space)).length := by
    rw [skipSpaces_eq, hstring, takeWhile_append_cons_of_neg (q := (· == space)) hlf]
  have hcopy : cstr s (p + a.length + (u.takeWhile (· == space)).length) =
      u.dropWhile (· == space) ++ lf :: rest := by
    apply cstr_add_of_append
    rw [hstring, ← List.append_assoc, List.takeWhile_append_dropWhile]
  have hlen := length_takeWhile_add_dropWhile (· == space) u
  have hdiff : ((p + (a ++ u).length : ℕ) : ℤ) -
      ((p + a.length + (u.takeWhile (· == space)).length : ℕ) : ℤ) =
        (u.dropWhile (· == space)).length := by
    rw [List.length_append]
    omega
  simp only [captureHost, hsearch, hskip, hcopy, hdiff]
  rw [copyName, copyName, copyChecked_append (by omega)]

/-- The loop over the header lines takes the complete lines one after the other. -/
theorem parseHeaders_eq (hs : cstr s p = headers) (hfuel : headers.length < fuel) :
    parseHeaders fuel s p out = (completeLines headers).foldlM headerLine out := by
  induction fuel generalizing p headers out with
  | zero => omega
  | succ fuel ih =>
      by_cases hmem : lf ∈ headers
      · obtain ⟨line, rest, rfl, hline⟩ := List.eq_append_cons_of_mem hmem
        have hsearch := strchr_of_append_cons (by decide) hs hline
        have hlen : rest.length < fuel := by
          simp at hfuel
          omega
        have hrec (out : ParseOut) :
            parseHeaders fuel s (p + line.length + 1) out =
              (completeLines rest).foldlM headerLine out := ih (cstr_after hs) hlen
        rw [completeLines_append hline, List.foldlM_cons]
        simp only [parseHeaders, hsearch, hs, headerLine,
          matchesCommandCaseInsensitive_line "Proxy-Connection: keep-alive" (by decide),
          matchesCommandCaseInsensitive_line "Host: " (by decide), hrec]
        split
        · rfl
        · split
          next hhost =>
            rw [captureHost_eq hs (space_mem_of_host hhost)]
            cases lineHost line out.hostname <;> rfl
          next => rfl
      · have hsearch : strchr s p lf = none := strchr_eq_none (by decide) (by rwa [hs])
        simp [parseHeaders, hsearch, completeLines_of_notMem hmem]
        rfl

/-! ## The whole request -/

theorem copyUrl_eq {url : List UInt8} (hs : cstr s p = url) :
    copyUrl s p out = applyUrl url out := by
  simp only [copyUrl, applyUrl, hs]
  split
  next => rfl
  next hhttp =>
    have hlen : 7 ≤ url.length := by
      have hmatch : matchesCommandCaseInsensitive url "http://" = true := by simpa using hhttp
      have hpre := strncasecmpEq_iff.mp hmatch
      have htext : (text "http://").length = 7 := rfl
      simpa [htext] using hpre.length_le
    have htail : cstr s (p + 7) = url.drop 7 := by rw [cstr_add s p 7 (by simpa [hs]), hs]
    have hsearch : strchr s (p + 7) 47 = ((url.drop 7).idxOf? 47).map (p + 7 + ·) := by
      rw [strchr_of_ne_zero (by decide), htail]
    rw [hsearch]
    cases hn : (url.drop 7).idxOf? 47 with
    | none => rfl
    | some n =>
        obtain ⟨a, b, hsplit, -, rfl⟩ := split_of_idxOf? hn
        have hslash : cstr s (p + 7 + a.length) = (url.drop 7).drop a.length := by
          rw [cstr_add _ _ _ (by simp [htail, hsplit]), htail]
        have hdiff : ((p + 7 + a.length : ℕ) : ℤ) - p - 7 = a.length := by omega
        simp only [Option.map_some, htail, hslash, hdiff]

theorem parseUrlAndHeaders_eq {lastSpace : ℕ} (hline : 0 ∉ line) (hheaders : 0 ∉ headers)
    (hlast : lastIdxOf? line space = some lastSpace) :
    (parseUrlAndHeaders (line ++ 0 :: (headers ++ 0 :: rest)) line.length lastSpace out).map
        (fun result ↦ (result.1, result.2.2)) =
      parseUrlText line headers lastSpace out := by
  obtain ⟨before, version, rfl, -, rfl⟩ := split_of_lastIdxOf? hlast
  have hrequest : cstr ((before ++ space :: version) ++ 0 :: (headers ++ 0 :: rest)) 0 =
      before ++ space :: version := cstr_append_nul hline _
  have hsearch : strchr ((before ++ space :: version) ++ 0 :: (headers ++ 0 :: rest)) 0 space =
      (before ++ space :: version).idxOf? space := by
    rw [strchr_of_ne_zero (by decide), hrequest]
    simp
  simp only [parseUrlAndHeaders, parseUrlText, hsearch]
  cases hfirst : (before ++ space :: version).idxOf? space with
  | none => rfl
  | some firstSpace =>
      simp only
      split
      next => rfl
      next hlt =>
        have hcut : ((before ++ space :: version) ++ 0 :: (headers ++ 0 :: rest)).set
            before.length 0 = before ++ 0 :: (version ++ 0 :: (headers ++ 0 :: rest)) := by
          simp
        have hbefore : 0 ∉ before := fun h ↦ hline (List.mem_append_left _ h)
        have hurl : cstr (before ++ 0 :: (version ++ 0 :: (headers ++ 0 :: rest)))
            (firstSpace + 1) =
            ((before ++ space :: version).take before.length).drop (firstSpace + 1) := by
          rw [← Nat.zero_add (firstSpace + 1), cstr_add _ _ _ (by
            rw [cstr_append_nul hbefore]
            omega), cstr_append_nul hbefore]
          simp
        have hrestore : (before ++ 0 :: (version ++ 0 :: (headers ++ 0 :: rest))).set
            before.length space =
              ((before ++ space :: version) ++ [0]) ++ (headers ++ 0 :: rest) := by
          simp
        have hafter : cstr (((before ++ space :: version) ++ [0]) ++ (headers ++ 0 :: rest))
            ((before ++ space :: version).length + 1) = headers := by
          have := cstr_append_right ((before ++ space :: version) ++ [0])
            (headers ++ 0 :: rest) 0
          rw [cstr_append_nul hheaders] at this
          simpa [Nat.add_assoc] using this
        have hfuel : headers.length <
            (((before ++ space :: version) ++ [0]) ++ (headers ++ 0 :: rest)).length + 1 := by
          simp
          omega
        have hloop (out : ParseOut) := (parseHeaders_eq hafter hfuel :
          parseHeaders _ _ _ out = _)
        rw [hcut, hrestore]
        simp only [copyUrl_eq hurl, hloop]
        cases applyUrl (((before ++ space :: version).take before.length).drop (firstSpace + 1))
            out with
        | error fault => rfl
        | ok out =>
            simp only [bind, Except.bind]
            cases (completeLines headers).foldlM headerLine { out with proxyKeepAlive := false }
              <;> rfl

/-- On a NUL-terminated request the parser computes `parseText`. -/
theorem parseRequestString_eq (rest : List UInt8) (out : ParseOut) (ht : 0 ∉ t) :
    (parseRequestString (t ++ 0 :: rest) out).map (fun result ↦ (result.1, result.2.2)) =
      parseText t out := by
  have hsearch : strchr (t ++ 0 :: rest) 0 lf = t.idxOf? lf := by
    rw [strchr_of_ne_zero (by decide), cstr_append_nul ht]
    simp
  simp only [parseRequestString, parseText, hsearch]
  cases hfirst : t.idxOf? lf with
  | none => rfl
  | some endOfFirstLine =>
      obtain ⟨line, headers, rfl, hlf, rfl⟩ := split_of_idxOf? hfirst
      have hline : 0 ∉ line := fun h ↦ ht (List.mem_append_left _ h)
      have hheaders : 0 ∉ headers := fun h ↦ ht (by simp [h])
      have hcut : ((line ++ lf :: headers) ++ 0 :: rest).set line.length 0 =
          line ++ 0 :: (headers ++ 0 :: rest) := by
        simp
      have hstring : cstr (line ++ 0 :: (headers ++ 0 :: rest)) 0 = line :=
        cstr_append_nul hline _
      have hsearchB : strrchr (line ++ 0 :: (headers ++ 0 :: rest)) 0 space =
          lastIdxOf? line space := by
        rw [strrchr_of_ne_zero (by decide), hstring]
        simp
      have htake : (line ++ lf :: headers).take line.length = line := by simp
      have hdrop : (line ++ lf :: headers).drop (line.length + 1) = headers := by simp
      simp only [hcut, hsearchB, htake, hdrop, parseLineText]
      cases hlast : lastIdxOf? line space with
      | none => rfl
      | some lastSpace =>
          have hlt : lastSpace + 1 ≤ line.length := by
            obtain ⟨a, b, rfl, -, rfl⟩ := split_of_lastIdxOf? hlast
            simp
          have hversion : cstr (line ++ 0 :: (headers ++ 0 :: rest)) (lastSpace + 1) =
              line.drop (lastSpace + 1) := by
            rw [← Nat.zero_add (lastSpace + 1), cstr_add _ _ _ (by rwa [hstring]), hstring]
            simp
          simp only [hversion, hstring]
          split
          next => rfl
          next =>
            cases requestMethod line with
            | none => rfl
            | some isGet => exact parseUrlAndHeaders_eq hline hheaders hlast

theorem parseText_of_parse {left : List UInt8} {status : Status} {out' : ParseOut} (ht : 0 ∉ t)
    (h : parseRequestString (t ++ 0 :: rest) out = .ok (status, left, out')) :
    parseText t out = .ok (status, out') := by
  rw [← parseRequestString_eq rest out ht, h]
  rfl

theorem exists_parse_of_parseText {status : Status} {out' : ParseOut} (rest : List UInt8)
    (ht : 0 ∉ t) (h : parseText t out = .ok (status, out')) :
    ∃ left, parseRequestString (t ++ 0 :: rest) out = .ok (status, left, out') := by
  rw [← parseRequestString_eq rest out ht] at h
  cases hparse : parseRequestString (t ++ 0 :: rest) out with
  | error fault =>
      rw [hparse] at h
      cases h
  | ok parsed =>
      rw [hparse] at h
      cases h
      exact ⟨parsed.2.1, rfl⟩

theorem parse_error_of_parseText {fault : Fault} (rest : List UInt8) (ht : 0 ∉ t)
    (h : parseText t out = .error fault) :
    parseRequestString (t ++ 0 :: rest) out = .error fault := by
  rw [← parseRequestString_eq rest out ht] at h
  cases hparse : parseRequestString (t ++ 0 :: rest) out with
  | error fault' =>
      rw [hparse] at h
      cases h
      rfl
  | ok parsed =>
      rw [hparse] at h
      cases h

end HttpProxy
