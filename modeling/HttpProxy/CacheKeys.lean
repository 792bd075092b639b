import HttpProxy.CacheLookups
import HttpProxy.RequestGrammar
import HttpProxy.UpstreamRequest

/-!
# Which requests share a cache record

The key of a record is the host and the path, put together without a separator.  As the path
starts with the first slash, two requests share a record if they have one host and one path,
both as the parser has left them.
-/

namespace HttpProxy

open CString Interaction Protocol Transition

variable {ttl : ℤ} {md5sum : List UInt8 → List UInt8} {s : CacheState} {log : List LookupEvent}
  {r₁ r₂ : AbsoluteRequest} {path path₁ path₂ hostname hostname₁ hostname₂ : List UInt8}
  {i j k₁ k₂ : ℕ}

/-! ## Paths and keys -/

theorem withoutLastSlash_head (h : path.head? = some 47) :
    (withoutLastSlash path).head? = some 47 := by
  obtain ⟨rest, rfl⟩ := List.head?_eq_some_iff.mp h
  unfold withoutLastSlash
  split
  next hlong =>
    cases rest with
    | nil => exact absurd rfl hlong.1
    | cons c rest => rfl
  next => rfl

theorem take_append_slash (hpath : withoutLastSlash path = path) (hne : path ≠ []) (n : ℕ) :
    withoutLastSlash ((path ++ [47]).take n) = withoutLastSlash (path.take n) := by
  rcases Nat.lt_or_ge path.length n with hlt | hge
  · rw [List.take_of_length_le (by simp; omega), List.take_of_length_le hlt.le, hpath,
      withoutLastSlash_append_slash hne]
  · rw [List.take_append_of_le_length hge]

/-- Paths that are one without their last slash are one after they are cut as well. -/
theorem withoutLastSlash_take (h : withoutLastSlash path₁ = withoutLastSlash path₂) (n : ℕ) :
    withoutLastSlash (path₁.take n) = withoutLastSlash (path₂.take n) := by
  have hslash {p q : List UInt8} (hp : p = withoutLastSlash p) (hq : q = withoutLastSlash q ++ [47])
      (h : withoutLastSlash p = withoutLastSlash q) :
      withoutLastSlash (p.take n) = withoutLastSlash (q.take n) := by
    rw [← h, ← hp] at hq
    have hne : p ≠ [] := by
      rintro rfl
      rw [hq] at h
      simp [withoutLastSlash] at h
    rw [hq, take_append_slash hp.symm hne]
  rcases withoutLastSlash_cases path₁ with hpath₁ | hpath₁
  · rcases withoutLastSlash_cases path₂ with hpath₂ | hpath₂
    · rw [hpath₁, hpath₂, h]
    · exact hslash hpath₁ hpath₂ h
  · rcases withoutLastSlash_cases path₂ with hpath₂ | hpath₂
    · exact (hslash hpath₂ hpath₁ h.symm).symm
    · rw [hpath₁, hpath₂, h]

/-- Host and path can be read off the key. -/
theorem key_injective (hhost₁ : 47 ∉ hostname₁) (hhost₂ : 47 ∉ hostname₂)
    (hpath₁ : path₁.head? = some 47) (hpath₂ : path₂.head? = some 47) :
    hostname₁ ++ path₁ = hostname₂ ++ path₂ ↔ hostname₁ = hostname₂ ∧ path₁ = path₂ := by
  obtain ⟨rest₁, rfl⟩ := List.head?_eq_some_iff.mp hpath₁
  obtain ⟨rest₂, rfl⟩ := List.head?_eq_some_iff.mp hpath₂
  constructor
  · intro h
    obtain ⟨hhost, rfl⟩ := first_split_unique h hhost₁ hhost₂
    exact ⟨hhost, rfl⟩
  · rintro ⟨rfl, hpath⟩
    rw [hpath]

/-! ## Requests that are looked up -/

/-- A run of a job with this request looks up this host and this path, which the parser has
left.  The resolver accepts no empty name, none with a slash and none that is too long. -/
structure LooksUp (r : AbsoluteRequest) (hostname path : List UInt8) : Prop where
  string : 0 ∉ r.bytes
  run : ∃ fuel locals table job rest tr outcome grant left out',
    job.request = r.bytes ++ 0 :: rest ∧
      anything.Run () (parseJob fuel locals table job) tr () outcome ∧
      ⟨.cacheRecordGetOrCreate (hostname ++ path), grant⟩ ∈ tr ∧
      parseRequestString job.request locals.parseOut = .ok (.success, left, out') ∧
      hostname = cstr out'.hostname 0 ∧ path = cstr out'.path 0
  hostname_ne : hostname ≠ []
  hostname_slash : 47 ∉ hostname
  hostname_length : hostname.length ≤ maxNameLength
  fits : (hostname ++ path).length ≤ urlMaxLength

theorem LooksUp.path_eq {r : AbsoluteRequest} (h : LooksUp r hostname path) :
    path = withoutLastSlash (r.path.take maxUrlSize) := by
  obtain ⟨fuel, locals, table, job, rest, tr, outcome, grant, left, out', hrequest, hrun, hlookup,
    hparse, -, rfl⟩ := h.run
  obtain ⟨left', out, hparse', ⟨-, hversion⟩, -⟩ := run_lookup hrun hlookup
  cases hparse.symm.trans hparse'
  rw [hrequest] at hparse
  have htext := parseText_of_parse h.string hparse
  obtain ⟨hgood, isGet, hmethod⟩ := r.accepted htext hversion
  have hpath : 0 ∉ r.path := fun hmem ↦ h.string (r.line_subset (r.path_subset hmem))
  exact (r.leaves hgood hmethod locals.buffersFit.path_last hpath htext).path

/-- Two requests share a record exactly if they have one host and one path, unless the paths
differ only behind the bytes that the parser keeps. -/
theorem sameRecord_iff (hmd5 : Function.Injective md5sum)
    (hs : (lookupHistory ttl md5sum).Reachable (s, log))
    (h₁ : LooksUp r₁ hostname₁ path₁) (h₂ : LooksUp r₂ hostname₂ path₂)
    (hentered₁ : .entered i (hostname₁ ++ path₁) ∈ log) (hfound₁ : .found i k₁ ∈ log)
    (hentered₂ : .entered j (hostname₂ ++ path₂) ∈ log) (hfound₂ : .found j k₂ ∈ log) :
    ((k₁ = k₂ ↔ hostname₁ = hostname₂ ∧
          withoutLastSlash r₁.path = withoutLastSlash r₂.path) ∧
        (k₁ = k₂ → upstreamRequest path₁ hostname₁ = upstreamRequest path₂ hostname₂)) ↔
      ¬(hostname₁ = hostname₂ ∧ withoutLastSlash r₁.path ≠ withoutLastSlash r₂.path ∧
        withoutLastSlash (r₁.path.take maxUrlSize) =
          withoutLastSlash (r₂.path.take maxUrlSize)) := by
  have hhead (r : AbsoluteRequest) :
      (withoutLastSlash (r.path.take maxUrlSize)).head? = some 47 := by
    apply withoutLastSlash_head
    obtain ⟨rest, hpath⟩ := List.head?_eq_some_iff.mp r.path_slash
    rw [hpath]
    rfl
  obtain rfl := h₁.path_eq
  obtain rfl := h₂.path_eq
  have hsame : k₁ = k₂ ↔ hostname₁ = hostname₂ ∧
      withoutLastSlash (r₁.path.take maxUrlSize) = withoutLastSlash (r₂.path.take maxUrlSize) := by
    rw [found_eq_iff hs hentered₁ hfound₁ hentered₂ hfound₂, hmd5.eq_iff,
      key_injective h₁.hostname_slash h₂.hostname_slash (hhead r₁) (hhead r₂)]
  rw [hsame]
  constructor
  · rintro ⟨hiff, -⟩ ⟨hhost, hne, hpath⟩
    exact hne (hiff.mp ⟨hhost, hpath⟩).2
  · intro hnot
    refine ⟨⟨fun h ↦ ⟨h.1, ?_⟩, fun h ↦ ⟨h.1, withoutLastSlash_take h.2 _⟩⟩, ?_⟩
    · by_contra hne
      exact hnot ⟨h.1, hne, h.2⟩
    · rintro ⟨rfl, hpath⟩
      rw [hpath]

/-! ## A path that is cut -/

/-- A path that fits the buffer with room for one byte. -/
def longPath : List UInt8 := 47 :: List.replicate 2046 98

theorem longPath_length : longPath.length = 2047 := by
  rw [longPath, List.length_cons, List.length_replicate]

theorem longPath_mem {c : UInt8} (h : c ∈ longPath) : c = 47 ∨ c = 98 := by
  rcases List.mem_cons.mp h with rfl | h
  · exact .inl rfl
  · exact .inr (List.eq_of_mem_replicate h)

theorem longPath_getLast : longPath.getLast? = some 98 := by
  rw [longPath, List.getLast?_cons, List.getLast?_replicate]
  rfl

theorem longPath_cut :
    withoutLastSlash (longPath.take maxUrlSize) = longPath ∧
      withoutLastSlash ((longPath ++ [47, 99]).take maxUrlSize) = longPath := by
  have hne : longPath ≠ [] := List.ne_nil_of_length_pos (by rw [longPath_length]; decide)
  have hlast : longPath.getLast? ≠ some 47 := by
    rw [longPath_getLast]
    decide
  have hlong : longPath.take maxUrlSize = longPath :=
    List.take_of_length_le (by rw [longPath_length]; decide)
  have hlonger : (longPath ++ [47, 99]).take maxUrlSize = longPath ++ [47] := by
    rw [List.take_append, hlong, longPath_length]
    rfl
  rw [hlong, hlonger, withoutLastSlash_append_slash hne]
  exact ⟨withoutLastSlash_of_getLast hlast, rfl⟩

theorem httpParts_longPath {tail : List UInt8} (htail : lf ∉ tail) :
    HttpParts (text "GET") (text "a") (longPath ++ tail) (text "HTTP/1.1") := by
  have hwords : lf ∉ text "GET" ∧ lf ∉ text "a" ∧ lf ∉ text "HTTP/1.1" := by decide
  have hpath : lf ∉ longPath := fun h ↦ by rcases longPath_mem h with h | h <;> simp [lf] at h
  refine ⟨by decide, by decide, rfl, by decide, ?_⟩
  simp only [List.mem_append, not_or]
  exact ⟨⟨⟨hwords.1, hwords.2.1⟩, hpath, htail⟩, hwords.2.2⟩

/-- The host `a` and the long path, with something behind it. -/
def longRequest (tail : List UInt8) (htail : lf ∉ tail) : AbsoluteRequest :=
  httpRequest (text "GET") (text "a") (longPath ++ tail) (text "HTTP/1.1") []
    (httpParts_longPath htail)

theorem longRequest_looksUp {tail : List UInt8} (htail : lf ∉ tail) (hnul : 0 ∉ tail)
    (hcut : withoutLastSlash ((longPath ++ tail).take maxUrlSize) = longPath) :
    LooksUp (longRequest tail htail) (text "a") longPath := by
  have hbytes : 0 ∉ (longRequest tail htail).bytes := by
    have hwords : 0 ∉ text "GET" ∧ 0 ∉ text "http://" ∧ 0 ∉ text "a" ∧ 0 ∉ text "HTTP/1.1" := by
      decide
    have hpath : 0 ∉ longPath := fun h ↦ by rcases longPath_mem h with h | h <;> simp at h
    simp only [longRequest, httpRequest, AbsoluteRequest.bytes, AbsoluteRequest.line,
      AbsoluteRequest.url, List.mem_append, List.mem_cons, not_or]
    exact ⟨⟨hwords.1, by decide, ⟨⟨hwords.2.1, hwords.2.2.1⟩, hpath, hnul⟩, by decide,
      hwords.2.2.2⟩, by decide, List.not_mem_nil⟩
  have hquery : 63 ∉ longPath := fun h ↦ by rcases longPath_mem h with h | h <;> simp at h
  have hversion : requestVersion (text "HTTP/1.1") = .dotOne := by decide
  have hmethod : requestMethod (longRequest tail htail).line = some true := by
    rw [AbsoluteRequest.line, requestMethod_append_space]
    exact (show requestMethod (text "GET") = some true by decide)
  have hcut' : withoutLastSlash ((longRequest tail htail).path.take maxUrlSize) = longPath := hcut
  obtain ⟨locals, job, tr, outcome, hrequest, hrun, hlookup, left, out', hparse, hhostname,
    hpath⟩ := (longRequest tail htail).exists_lookup (.unavailable none) (.inr hversion) hmethod
      (show (text "a").length ≤ maxNameLength by decide) rfl hbytes (hcut'.symm ▸ hquery)
  rw [hcut'] at hlookup hpath
  refine ⟨hbytes, ⟨0, locals, [], job, [], tr, outcome, .unavailable none, left, out', hrequest,
    hrun, hlookup, hparse, hhostname, hpath⟩, by decide, by decide, by decide, ?_⟩
  rw [List.length_append, longPath_length]
  decide

/-- Two calls one after the other, both for one url. -/
theorem lookups_reachable {url : List UInt8} (hlength : url.length ≤ urlMaxLength) :
    ∃ s, (lookupHistory 10 id).Reachable
      (s, [.entered 0 url, .found 0 0, .entered 1 url, .found 1 0]) := by
  have henter : enterCall id url = .lockTable url := if_neg (Nat.not_lt.mpr hlength)
  have hinit : (lookupHistory 10 id).Reachable (⟨⟨[], none, fun _ ↦ none, 0⟩, []⟩, []) :=
    .init ⟨⟨rfl, rfl, fun _ ↦ rfl, rfl⟩, rfl⟩
  have hcall := hinit.log (.call url)
  rw [henter] at hcall
  have hlock := hcall.log (.advance (i := 0) rfl (.lockTable rfl))
  have hmiss := hlock.log (.advance (i := 0) rfl (.miss rfl))
  have hcreate := hmiss.log (.advance (i := 0) rfl (.create (Int.le_refl 0)))
  have hunlock := hcreate.log (.advance (i := 0) rfl .unlockTable)
  have hagain := hunlock.log (.call url)
  rw [henter] at hagain
  have hrelock := hagain.log (.advance (i := 1) rfl (.lockTable rfl))
  have hfind : hashFind [cacheRecordCreate 10 url 0] url = some 0 := by
    simp [hashFind, cacheRecordCreate]
  exact ⟨_, hrelock.log (.advance (i := 1) rfl (.hit hfind))⟩

/-- One path is the other with two bytes more, and both come to one record. -/
theorem longRequests_lookUp :
    ∃ s log, (lookupHistory 10 id).Reachable (s, log) ∧
      LooksUp (longRequest [47, 99] (by decide)) (text "a") longPath ∧
      LooksUp (longRequest [] (by decide)) (text "a") longPath ∧
      .entered 0 (text "a" ++ longPath) ∈ log ∧ .found 0 0 ∈ log ∧
      .entered 1 (text "a" ++ longPath) ∈ log ∧ .found 1 0 ∈ log := by
  have hlength : (text "a" ++ longPath).length ≤ urlMaxLength := by
    rw [List.length_append, longPath_length]
    decide
  obtain ⟨s, hs⟩ := lookups_reachable hlength
  refine ⟨s, _, hs, ?_, ?_, by simp, by simp, by simp, by simp⟩
  · exact longRequest_looksUp _ (by decide) longPath_cut.2
  · apply longRequest_looksUp _ (by decide)
    rw [List.append_nil]
    exact longPath_cut.1

theorem longRequest_paths :
    withoutLastSlash (longRequest [47, 99] (by decide)).path = longPath ++ [47, 99] ∧
      withoutLastSlash (longRequest [] (by decide)).path = longPath := by
  constructor
  · exact withoutLastSlash_of_getLast (by simp [longRequest, httpRequest])
  · have hpath : (longRequest [] (by decide)).path = longPath := List.append_nil longPath
    rw [hpath]
    exact withoutLastSlash_of_getLast (by rw [longPath_getLast]; decide)

theorem sameRecord_iff_longRequests :
    ((0 = 0 ↔ text "a" = text "a" ∧
          withoutLastSlash (longRequest [47, 99] (by decide)).path =
            withoutLastSlash (longRequest [] (by decide)).path) ∧
        (0 = 0 → upstreamRequest longPath (text "a") = upstreamRequest longPath (text "a"))) ↔
      ¬(text "a" = text "a" ∧
        withoutLastSlash (longRequest [47, 99] (by decide)).path ≠
          withoutLastSlash (longRequest [] (by decide)).path ∧
        withoutLastSlash ((longRequest [47, 99] (by decide)).path.take maxUrlSize) =
          withoutLastSlash ((longRequest [] (by decide)).path.take maxUrlSize)) := by
  obtain ⟨s, log, hs, h₁, h₂, hentered₁, hfound₁, hentered₂, hfound₂⟩ := longRequests_lookUp
  exact sameRecord_iff Function.injective_id hs h₁ h₂ hentered₁ hfound₁ hentered₂ hfound₂

theorem longRequests_share :
    ∃ (r₁ r₂ : AbsoluteRequest) (hostname path₁ path₂ : List UInt8) (s : CacheState)
      (log : List LookupEvent) (k : ℕ),
      (lookupHistory 10 id).Reachable (s, log) ∧
        LooksUp r₁ hostname path₁ ∧ LooksUp r₂ hostname path₂ ∧
        .entered 0 (hostname ++ path₁) ∈ log ∧ .found 0 k ∈ log ∧
        .entered 1 (hostname ++ path₂) ∈ log ∧ .found 1 k ∈ log ∧
        withoutLastSlash r₁.path ≠ withoutLastSlash r₂.path := by
  obtain ⟨s, log, hs, h₁, h₂, hentered₁, hfound₁, hentered₂, hfound₂⟩ := longRequests_lookUp
  refine ⟨_, _, _, _, _, s, log, 0, hs, h₁, h₂, hentered₁, hfound₁, hentered₂, hfound₂, ?_⟩
  rw [longRequest_paths.1, longRequest_paths.2]
  simp

end HttpProxy
