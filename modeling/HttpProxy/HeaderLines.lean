import HttpProxy.RequestSafety

/-!
# What the header lines say

The parser writes every `Host` value over the host it already has and remembers whether one
line keeps the connection.  So two texts with the same request line are parsed to the same if
and only if their complete header lines say the same.
-/

namespace HttpProxy

open CString Fallible

variable {line url host hostname : List UInt8} {lines lines₁ lines₂ : List (List UInt8)}
  {out out' out₁ out₂ : ParseOut}

def IsKeepAlive (line : List UInt8) : Prop :=
  matchesCommandCaseInsensitive line "Proxy-Connection: keep-alive" = true

def IsHostLine (line : List UInt8) : Prop := matchesCommandCaseInsensitive line "Host: " = true

instance (line : List UInt8) : Decidable (IsHostLine line) := inferInstanceAs (Decidable (_ = _))

/-- A `Host` line decides the bytes of the host up to the last but two of its value, and
ends the host where the last one stands. -/
def overwriteHost (host : ℕ → UInt8) (line : List UInt8) : ℕ → UInt8 := fun i ↦
  if ¬IsHostLine line then host i
  else if i + 2 < (hostValue line).length then (hostValue line).getD i 0
  else if i + 1 = (hostValue line).length then 0
  else host i

def hostAfter (host : List UInt8) (lines : List (List UInt8)) : ℕ → UInt8 :=
  lines.foldl overwriteHost (host.getD · 0)

/-- Two lists of header lines leave the same host over the one of the url, and both or none
of them keeps the connection. -/
structure SameHeaders (host : List UInt8) (lines₁ lines₂ : List (List UInt8)) : Prop where
  host : SameString (hostAfter host lines₁) (hostAfter host lines₂)
  keepAlive : (∃ line ∈ lines₁, IsKeepAlive line) ↔ ∃ line ∈ lines₂, IsKeepAlive line

/-- The host of an absolute url. -/
def urlHost (url : List UInt8) : List UInt8 :=
  if matchesCommandCaseInsensitive url "http://" then (url.drop 7).takeWhile (· ≠ 47) else []

/-- The same strings and flags, whatever the buffers hold behind the strings. -/
structure SameParse (out₁ out₂ : ParseOut) : Prop where
  version : out₁.version = out₂.version
  isGet : out₁.isGet = out₂.isGet
  hostname : cstr out₁.hostname 0 = cstr out₂.hostname 0
  path : cstr out₁.path 0 = cstr out₂.path 0
  proxyKeepAlive : out₁.proxyKeepAlive = out₂.proxyKeepAlive

/-! ## Reading the lines -/

theorem copyName_getD {dst src copied : List UInt8} {n k : ℕ} (hn : n ≤ src.length) (hk : n ≤ k)
    (h : copyName dst src n k = .ok copied) (i : ℕ) :
    copied.getD i 0 = if i < n then src.getD i 0 else if i = k then 0 else dst.getD i 0 := by
  obtain ⟨⟨-, hfits⟩, ⟨-, hterminated⟩, rfl⟩ := copyName_ok h
  have hpad : n - src.length = 0 := by omega
  have hlength : (src.take n).length = n := by simp [hn]
  have hinside : k < n + (dst.length - n) := by omega
  simp only [Int.toNat_natCast, List.getD_eq_getElem?_getD, List.getElem?_set, strncpy, hpad,
    List.replicate_zero, List.append_nil, List.getElem?_append, hlength, List.getElem?_take,
    List.getElem?_drop, List.length_append, List.length_drop, if_pos hinside]
  by_cases hlt : i < n
  · simp only [if_pos hlt, if_neg (show ¬k = i by omega)]
  · rw [if_neg hlt, if_neg hlt, Nat.add_sub_of_le (by omega)]
    by_cases hnul : k = i
    · rw [if_pos hnul, if_pos hnul.symm]
      rfl
    · rw [if_neg hnul, if_neg (Ne.symm hnul)]

/-- What is left of the variables of the caller by header lines. -/
structure ReadsLines (lines : List (List UInt8)) (out out' : ParseOut) : Prop where
  version : out'.version = out.version
  isGet : out'.isGet = out.isGet
  path : out'.path = out.path
  host : (out'.hostname.getD · 0) = lines.foldl overwriteHost (out.hostname.getD · 0)
  keepAlive : out'.proxyKeepAlive = true ↔
    out.proxyKeepAlive = true ∨ ∃ line ∈ lines, IsKeepAlive line

theorem ReadsLines.trans (h : ReadsLines lines₁ out out₁) (h' : ReadsLines lines₂ out₁ out₂) :
    ReadsLines (lines₁ ++ lines₂) out out₂ where
  version := h'.version.trans h.version
  isGet := h'.isGet.trans h.isGet
  path := h'.path.trans h.path
  host := by rw [h'.host, h.host, List.foldl_append]
  keepAlive := by
    rw [h'.keepAlive, h.keepAlive, or_assoc]
    simp only [List.mem_append, or_and_right, exists_or]

theorem lineHost_getD {copied : List UInt8} (hline : IsHostLine line)
    (h : lineHost line hostname = .ok copied) :
    (copied.getD · 0) = overwriteHost (hostname.getD · 0) line := by
  have hlong : 2 ≤ (hostValue line).length := by
    rcases Nat.lt_or_ge (hostValue line).length 2 with hlt | hge
    · rw [lineHost, copyName, copyChecked, if_pos (by omega)] at h
      cases h
    · exact hge
  obtain ⟨n, hn⟩ := Nat.exists_eq_add_of_le' hlong
  rw [lineHost, hn] at h
  have hcopy : copyName hostname (hostValue line) (n : ℤ) ((n + 1 : ℕ) : ℤ) = .ok copied := by
    rw [← h]
    congr 1 <;> omega
  funext i
  simp only [copyName_getD (by omega) (by omega) hcopy i, overwriteHost,
    if_neg (not_not.mpr hline), hn, Nat.add_lt_add_iff_right,
    Nat.add_right_cancel_iff (m := i) (n := 1)]

theorem headerLine_ok (h : headerLine out line = .ok out') : ReadsLines [line] out out' := by
  unfold headerLine at h
  split at h
  next hkeep =>
    cases h
    have hother : ¬IsHostLine line := not_host_of_keepAlive hkeep
    refine ⟨rfl, rfl, rfl, ?_, by simp [IsKeepAlive, hkeep]⟩
    funext i
    simp [overwriteHost, hother]
  next hkeep =>
    have hnone : ¬IsKeepAlive line := hkeep
    split at h
    next hhost =>
      obtain ⟨copied, hcopy, h⟩ := bind_eq_ok.mp h
      cases h
      exact ⟨rfl, rfl, rfl, lineHost_getD hhost hcopy, by simp [hnone]⟩
    next hhost =>
      cases h
      have hother : ¬IsHostLine line := hhost
      refine ⟨rfl, rfl, rfl, ?_, by simp [hnone]⟩
      funext i
      simp [overwriteHost, hother]

theorem headerLines_ok (h : lines.foldlM headerLine out = .ok out') :
    ReadsLines lines out out' := by
  induction lines generalizing out with
  | nil =>
      cases h
      exact ⟨rfl, rfl, rfl, rfl, by simp⟩
  | cons line lines ih =>
      rw [List.foldlM_cons] at h
      obtain ⟨read, hread, h⟩ := bind_eq_ok.mp h
      exact (headerLine_ok hread).trans (ih h)

theorem foldl_overwriteHost_of_forall_not {host : ℕ → UInt8}
    (h : ∀ line ∈ lines, ¬IsHostLine line) : lines.foldl overwriteHost host = host := by
  induction lines with
  | nil => rfl
  | cons line lines ih =>
      have hline : overwriteHost host line = host := by
        funext i
        exact if_pos (h line List.mem_cons_self)
      rw [List.foldl_cons, hline, ih fun l hl ↦ h l (List.mem_cons_of_mem _ hl)]

theorem hostValue_subset (line : List UInt8) : hostValue line ⊆ line :=
  ((List.dropWhile_suffix _).trans (List.dropWhile_suffix _)).subset

/-- Every byte of the host comes from the host before the lines or from one of the lines. -/
theorem foldl_overwriteHost_forall {P : UInt8 → Prop} {host : ℕ → UInt8} (hnul : P 0)
    (hhost : ∀ i, P (host i)) (hlines : ∀ line ∈ lines, ∀ c ∈ line, P c) (i : ℕ) :
    P (lines.foldl overwriteHost host i) := by
  induction lines generalizing host with
  | nil => exact hhost i
  | cons line lines ih =>
      obtain ⟨hline, hrest⟩ := List.forall_mem_cons.mp hlines
      refine ih (fun j ↦ ?_) hrest
      unfold overwriteHost
      split
      · exact hhost j
      · split
        next hinside =>
          rw [List.getD_eq_getElem?_getD, List.getElem?_eq_getElem (by omega)]
          exact hline _ (hostValue_subset line (List.getElem_mem _))
        next =>
          split
          · exact hnul
          · exact hhost j

/-! ## The url -/

theorem applyUrl_host (hzero : out.hostname = List.replicate (maxNameLength + 1) 0)
    (h : applyUrl url out = .ok out') : (out'.hostname.getD · 0) = ((urlHost url).getD · 0) := by
  have hnul (i : ℕ) : out.hostname.getD i 0 = 0 := by rw [hzero, cleared_getD]
  unfold applyUrl at h
  split at h
  next hhttp =>
    cases h
    have hother : ¬matchesCommandCaseInsensitive url "http://" = true := by simpa using hhttp
    funext i
    rw [urlHost, if_neg hother]
    exact hnul i
  next hhttp =>
    have hhttp : matchesCommandCaseInsensitive url "http://" = true := by simpa using hhttp
    cases hn : (url.drop 7).idxOf? 47 with
    | none =>
        rw [hn] at h
        cases h
    | some n =>
        obtain ⟨host, path, hsplit, hhost, rfl⟩ := split_of_idxOf? hn
        rw [hn] at h
        obtain ⟨hostname, hcopy, h⟩ := bind_eq_ok.mp h
        obtain ⟨path', -, h⟩ := bind_eq_ok.mp h
        obtain ⟨path'', -, h⟩ := bind_eq_ok.mp h
        cases h
        have htake : (url.drop 7).takeWhile (· ≠ 47) = host := by
          rw [hsplit, takeWhile_ne_append_cons hhost]
        rw [urlHost, if_pos hhttp, htake]
        funext i
        rw [copyName_getD (by simp [hsplit]) le_rfl hcopy i, hsplit, hnul, ite_self]
        split
        next hlt => simp [List.getElem?_append, hlt]
        next hge => simp [not_lt.mp hge]

/-! ## Two texts with one request line -/

variable {headers₁ headers₂ : List UInt8} {status₁ status₂ : Status}

theorem parseText_line (headers : List UInt8) (hline : lf ∉ line) :
    parseText (line ++ lf :: headers) out = parseLineText line headers out := by
  have hdrop : (line ++ lf :: headers).drop (line.length + 1) = headers := by simp
  simp only [parseText, idxOf?_append_cons hline, List.take_left, hdrop]

theorem parseLineText_same_iff (hzero : out.hostname = List.replicate (maxNameLength + 1) 0)
    (h₁ : parseLineText line headers₁ out = .ok (status₁, out₁))
    (h₂ : parseLineText line headers₂ out = .ok (status₂, out₂)) :
    SameParse out₁ out₂ ↔ ∀ url, HasUrl line url →
      SameHeaders (urlHost url) (completeLines headers₁) (completeLines headers₂) := by
  rcases parseLineText_cases line out with ⟨hnone, version, isGet, hend⟩ |
    ⟨url, version, isGet, hurl, hend⟩
  · rw [hend] at h₁ h₂
    cases h₁
    cases h₂
    exact iff_of_true ⟨rfl, rfl, rfl, rfl, rfl⟩ fun url h ↦ absurd h (hnone url)
  · rw [hend] at h₁ h₂
    obtain ⟨base, hbase, h₁⟩ := bind_eq_ok.mp h₁
    obtain ⟨base', hbase', h₂⟩ := bind_eq_ok.mp h₂
    obtain rfl : base = base' := Except.ok.inj (hbase.symm.trans hbase')
    obtain ⟨read₁, hread₁, h₁⟩ := bind_eq_ok.mp h₁
    obtain ⟨read₂, hread₂, h₂⟩ := bind_eq_ok.mp h₂
    cases h₁
    cases h₂
    have hlines₁ := headerLines_ok hread₁
    have hlines₂ := headerLines_ok hread₂
    have hhost := applyUrl_host (by exact hzero) hbase
    have hstring : cstr out₁.hostname 0 = cstr out₂.hostname 0 ↔
        SameString (hostAfter (urlHost url) (completeLines headers₁))
          (hostAfter (urlHost url) (completeLines headers₂)) := by
      rw [cstr_eq_iff, hlines₁.host, hlines₂.host, hhost]
      rfl
    have hkeep : out₁.proxyKeepAlive = out₂.proxyKeepAlive ↔
        ((∃ line ∈ completeLines headers₁, IsKeepAlive line) ↔
          ∃ line ∈ completeLines headers₂, IsKeepAlive line) := by
      rw [Bool.eq_iff_iff, hlines₁.keepAlive, hlines₂.keepAlive]
      simp
    constructor
    · intro h url' hurl'
      rw [hurl'.unique hurl]
      exact ⟨hstring.mp h.hostname, hkeep.mp h.proxyKeepAlive⟩
    · intro h
      obtain ⟨hsame, hkept⟩ := h url hurl
      have hversion := hlines₁.version.trans hlines₂.version.symm
      have hget := hlines₁.isGet.trans hlines₂.isGet.symm
      have hpath := hlines₁.path.trans hlines₂.path.symm
      exact ⟨hversion, hget, hstring.mpr hsame, by rw [hpath], hkeep.mpr hkept⟩

end HttpProxy
