import HttpProxy.PrefetchRequests

/-!
# From the links of a page to requests for them

`dispatch_prefetch_jobs` over a whole file: the jobs it pushes are those of the links that its
calls of `find_href` return.  On a page whose links are in reach these are all links of the page,
and what is pushed for a link is parsed as a request for it.
-/

namespace HttpProxy

open CString Interaction Protocol

variable {content hostname link : List UInt8} {results : List (List UInt8 × ℕ)} {p fuel : ℕ}
  {file : FileHandle}

/-- A file that is only read from, and the jobs that are pushed meanwhile. -/
structure DispatchState where
  file : OpenFile
  pushed : List Job

/-- Whether there was room on the stack for a job is left open. -/
def dispatching : Protocol Resp DispatchState where
  requires _ _ := True
  answers s := scanning.answers s.file
  next s op answer :=
    match op, answer with
    | .jobStackPush job, _ => { s with pushed := s.pushed ++ [job] }
    | op, answer => { s with file := scanning.next s.file op answer }

/-- The links that a job is made for. -/
def Prefetched (link : List UInt8) : Prop :=
  matchesCommand link "http://" = true ∨ matchesCommand link "/" = true

instance (link : List UInt8) : Decidable (Prefetched link) := inferInstanceAs (Decidable (_ ∨ _))

/-- The jobs for the links among these results. -/
def jobsFor (hostname : List UInt8) (results : List (List UInt8 × ℕ)) : List Job :=
  (results.filter fun r ↦ Prefetched r.1).map fun r ↦ prefetchJob hostname r.1

theorem jobsFor_cons (hostname : List UInt8) (r : List UInt8 × ℕ)
    (results : List (List UInt8 × ℕ)) :
    jobsFor hostname (r :: results) =
      (if Prefetched r.1 then [prefetchJob hostname r.1] else []) ++ jobsFor hostname results := by
  unfold jobsFor
  by_cases h : Prefetched r.1 <;> simp [h]

theorem dispatching_file (s : DispatchState) (op : Op) (answer : Resp op) :
    scanning.next s.file op answer = (dispatching.next s op answer).file := by
  cases op <;> rfl

/-! ## The loop -/

/-- A call of `find_href` does to the file what it does alone, and pushes nothing. -/
theorem run_findHref_dispatching {s s' : DispatchState} {tr : Trace}
    {out : Except Fault HrefResult} (h : dispatching.Run s (findHref fuel file) tr s' out) :
    scanning.Run s.file (findHref fuel file) tr s'.file out ∧ s'.pushed = s.pushed := by
  refine ⟨h.map DispatchState.file (fun _ _ _ ↦ id) dispatching_file, ?_⟩
  have hpushed : dispatching.Keeps (findHref fuel file) (fun s' _ ↦ s'.pushed = s.pushed) s := by
    refine ⟨trivial, fun stale _ ↦ ?_⟩
    apply keeps_of_calls DispatchState.pushed (findHrefLoop_reads _ _ _) (fun _ _ _ ↦ trivial)
    intro s op hop answer
    cases op <;> first | rfl | cases hop
  exact h.keeps hpushed

/-- A call finds something only in front of the end of the file. -/
theorem run_findHref_left {s s' : OpenFile} {tr : Trace} {result : HrefResult}
    (hfuel : s.content.length < fuel) (hne : result ≠ .finished)
    (h : scanning.Run s (findHref fuel file) tr s' (.ok result)) : s'.left < s.left := by
  have hbefore : s.position < s.content.length := by
    by_contra hend
    have hread : s.read maxUrlSize = [] := by
      rw [OpenFile.read, List.drop_of_length_le (Nat.le_of_not_lt hend), List.take_nil]
    cases fuel with
    | zero => omega
    | succ fuel =>
        have hkeeps : scanning.Keeps (findHref (fuel + 1) file)
            (fun _ out ↦ out = .ok .finished) s :=
          keeps_findHref fun _ ↦ keeps_findHrefLoop_finished hread rfl
        exact hne (Except.ok.inj (h.keeps hkeeps))
  obtain ⟨hcontent, hgoesOn⟩ := goesOn_of_run hfuel h
  have hlater : s.position < s'.position := by
    cases result with
    | finished => exact absurd rfl hne
    | fail => exact hgoesOn
    | success link =>
        simp only at hgoesOn
        omega
  simp only at hcontent
  simp only [OpenFile.left, hcontent]
  omega

/-- The loop pushes the jobs of the links that its calls return. -/
theorem run_dispatchLoop_pushes {s s' : DispatchState} {tr : Trace} {out : Except Fault Unit}
    (hfuel : s.file.content.length + s.file.left + 1 < fuel)
    (h : dispatching.Run s (dispatchLoop fuel file hostname) tr s' out) :
    ∃ results, HrefCalls s.file.content s.file.position results ∧
      s'.pushed = s.pushed ++ jobsFor hostname results := by
  induction fuel generalizing s tr with
  | zero => omega
  | succ fuel ih =>
      have hcall : s.file.content.length < fuel := by omega
      rcases h.bind_cases with ⟨fault, hfind, rfl⟩ | ⟨result, tr₁, s₁, tr₂, hfind, hrest, rfl⟩
      · obtain ⟨hscan, hpushed⟩ := run_findHref_dispatching hfind
        exact ⟨[], .fault hcall hscan, by simp [hpushed, jobsFor]⟩
      · obtain ⟨hscan, hpushed⟩ := run_findHref_dispatching hfind
        have hcontent : s₁.file.content = s.file.content := (goesOn_of_run hcall hscan).1
        -- The rest of the loop starts further on in the same file.
        have hrec {s₂ : DispatchState} {tr : Trace} (hfile : s₂.file = s₁.file)
            (hne : result ≠ .finished)
            (hrun : dispatching.Run s₂ (dispatchLoop fuel file hostname) tr s' out) :
            ∃ results, HrefCalls s.file.content s₁.file.position results ∧
              s'.pushed = s₂.pushed ++ jobsFor hostname results := by
          have hleft := run_findHref_left hcall hne hscan
          have hless : s₂.file.content.length + s₂.file.left + 1 < fuel := by
            rw [hfile, hcontent]
            omega
          have hresults := ih hless hrun
          rwa [hfile, hcontent] at hresults
        cases result with
        | finished =>
            obtain ⟨-, rfl, -⟩ := run_ret.mp hrest
            exact ⟨[], .finished hcall hscan, by simp [hpushed, jobsFor]⟩
        | fail =>
            obtain ⟨results, hcalls, hjobs⟩ := hrec rfl (by simp) hrest
            exact ⟨results, .fail hcall hscan hcalls, by rw [hjobs, hpushed]⟩
        | success link =>
            simp only at hrest
            split at hrest
            next hstart =>
              obtain ⟨answer, tr, -, rfl, hrun⟩ := run_call.mp hrest
              let s₂ : DispatchState :=
                { s₁ with pushed := s₁.pushed ++ [prefetchJob hostname link] }
              have hfile : s₂.file = s₁.file := rfl
              obtain ⟨results, hcalls, hjobs⟩ := hrec hfile (by simp) hrun
              refine ⟨_, .success hcall hscan hcalls, ?_⟩
              have hlink : Prefetched link := hstart
              rw [hjobs, jobsFor_cons, if_pos hlink, ← List.append_assoc, ← hpushed]
            next hstart =>
              obtain ⟨results, hcalls, hjobs⟩ := hrec rfl (by simp) hrest
              refine ⟨_, .success hcall hscan hcalls, ?_⟩
              have hlink : ¬Prefetched link := hstart
              rw [hjobs, jobsFor_cons, if_neg hlink, List.nil_append, hpushed]

/-! ## Requests for links -/

/-- A request can be made of this link on this host: it has no line feed, and if it names a host
then one that fits and with a slash behind it. -/
def Requestable (hostname link : List UInt8) : Prop :=
  lf ∉ link ∧ (matchesCommand link "http://" = true →
    (linkHost hostname link).length ≤ maxNameLength ∧
      (linkParts hostname link).2.head? = some 47)

/-- A host and what follows it of which a request can be made. -/
structure PartsFit (host rest : List UInt8) : Prop where
  string : 0 ∉ host ++ rest
  line : lf ∉ host ++ rest
  host_slash : 47 ∉ host
  host_length : host.length ≤ maxNameLength
  rest_slash : rest.head? = some 47
  rest_length : rest.length ≤ maxUrlSize

theorem PartsFit.rest_ne {host rest : List UInt8} (h : PartsFit host rest) : rest ≠ [] := by
  rintro rfl
  cases h.rest_slash

section

variable (hhost : ParsedHost hostname) (hslash : 47 ∉ hostname) (hlink : FoundLink link)
  (hstart : Prefetched link) (hrequestable : Requestable hostname link)
include hhost hslash hlink hstart hrequestable

theorem linkParts_fit : PartsFit (linkHost hostname link) (linkParts hostname link).2 := by
  obtain ⟨hnul, hlf, hlength⟩ := hhost.facts
  obtain ⟨hlinkNul, hlinkLength⟩ := hlink.facts
  obtain ⟨hlinkLf, hfits⟩ := hrequestable
  by_cases hhttp : matchesCommand link "http://" = true
  · obtain ⟨hother, hparts⟩ := linkParts_append hostname hhttp
    have hauthority : 47 ∉ linkHost hostname link := by
      rw [linkHost, linkParts, if_neg hother]
      intro hmem
      simpa [EndsAuthority] using List.mem_takeWhile_imp hmem
    have hin : linkHost hostname link ++ (linkParts hostname link).2 ⊆ link := by
      conv_rhs => rw [hparts]
      exact List.subset_append_right _ _
    have hrest : (linkParts hostname link).2.length ≤ maxUrlSize := by
      have hwhole := congrArg List.length hparts
      simp only [List.length_append] at hwhole
      omega
    obtain ⟨hhostLength, hhead⟩ := hfits hhttp
    exact ⟨fun hmem ↦ hlinkNul (hin hmem), fun hmem ↦ hlinkLf (hin hmem), hauthority, hhostLength,
      hhead, hrest⟩
  · have hpath : matchesCommand link "/" = true := hstart.resolve_left hhttp
    have hparts : linkParts hostname link = (hostname, link) := if_pos hpath
    have hhead : link.head? = some 47 := by
      obtain ⟨rest, rfl⟩ := matchesCommand_iff.mp hpath
      rfl
    rw [linkHost, hparts]
    exact ⟨by simp [hnul, hlinkNul], by simp [hlf, hlinkLf], hslash, hlength, hhead, hlinkLength⟩

omit hslash hrequestable in
theorem prefetchJob_bytes : ∃ more, (prefetchJob hostname link).request =
    prefetchRequest (linkHost hostname link) (linkParts hostname link).2 ++ 0 :: more := by
  obtain ⟨hnul, -, hlength⟩ := hhost.facts
  obtain ⟨hlinkNul, hlinkLength⟩ := hlink.facts
  have hfits : LinkFits hostname link := ⟨hnul, by omega, hlinkNul, hlinkLength⟩
  obtain ⟨more, hrequest⟩ := prefetchJob_request hfits
  exact ⟨more, by rw [hrequest, dispatchRequest_eq hstart]⟩

theorem prefetchJob_parsedAs (locals : Locals) :
    ParsedAs (prefetchJob hostname link).request locals.parseOut (linkHost hostname link)
      (linkPath hostname link) := by
  have hfit := linkParts_fit hhost hslash hlink hstart hrequestable
  obtain ⟨more, hrequest⟩ := prefetchJob_bytes hhost hlink hstart
  rw [hrequest]
  exact parsedAs_of_fits locals.buffersFit rfl hfit.string rfl hfit.host_slash hfit.rest_length
    hfit.line hfit.host_length hfit.rest_slash more

end

/-- Every result of the calls is a link that was found. -/
theorem HrefCalls.foundLink (h : HrefCalls content p results) : ∀ r ∈ results, FoundLink r.1 := by
  induction h with
  | finished => exact List.forall_mem_nil _
  | fault => exact List.forall_mem_nil _
  | fail _ _ _ ih => exact ih
  | success hfuel h hs ih => exact List.forall_mem_cons.mpr ⟨⟨_, _, _, _, _, _, h⟩, ih⟩

/-- What `dispatch_prefetch_jobs` makes of a page: it pushes a job for each result of its calls of
`find_href` that starts like a link to follow, among the results are the links of the page, in
order and each of them once, and what it pushes for one of these is parsed as a request for it. -/
structure CoversLinks (content hostname : List UInt8) (pushed : List Job) : Prop where
  jobs : ∃ results, HrefCalls content 0 results ∧ pushed = jobsFor hostname results ∧
    results.filter (· ∈ occurrences 0 content) = occurrences 0 content
  requested : ∀ r ∈ occurrences 0 content, Prefetched r.1 → Requestable hostname r.1 →
    prefetchJob hostname r.1 ∈ pushed ∧ ∀ locals : Locals,
      ParsedAs (prefetchJob hostname r.1).request locals.parseOut (linkHost hostname r.1)
        (linkPath hostname r.1)

/-- Of a page whose links are in reach every link is prefetched, whatever is in the buffers and
however the stack answers. -/
theorem dispatch_coversLinks (hhost : ParsedHost hostname) (hslash : 47 ∉ hostname)
    (hnul : 0 ∉ content) (hreach : InReach content) {s' : DispatchState} {tr : Trace}
    {out : Except Fault Unit} (hfuel : 2 * content.length + 1 < fuel)
    (h : dispatching.Run ⟨⟨content, p⟩, []⟩
      (dispatchPrefetchJobs fuel (some file) hostname) tr s' out) :
    CoversLinks content hostname s'.pushed := by
  obtain ⟨answer, tr, -, rfl, hloop⟩ := run_call.mp h
  have hstart : dispatching.Run ⟨⟨content, 0⟩, []⟩ (dispatchLoop fuel file hostname) tr s' out :=
    hloop
  have hless : content.length + (OpenFile.mk content 0).left + 1 < fuel := by
    simp only [OpenFile.left]
    omega
  obtain ⟨results, hcalls, hjobs⟩ := run_dispatchLoop_pushes hless hstart
  rw [List.nil_append] at hjobs
  obtain ⟨first, hlinks, hreturns⟩ := hreach.returnsFrom hnul (List.drop_zero (l := content))
  have hsublist := hlinks.trans (hreturns results hcalls).sublist
  refine ⟨⟨results, hcalls, hjobs, filter_mem_of_sublist hsublist hcalls.increasing.2⟩,
    fun r hr hprefetched hrequestable ↦ ?_⟩
  have hmem : r ∈ results := hsublist.subset hr
  have hjob : prefetchJob hostname r.1 ∈ s'.pushed := by
    rw [hjobs, jobsFor, List.mem_map]
    exact ⟨r, List.mem_filter.mpr ⟨hmem, by simpa using hprefetched⟩, rfl⟩
  exact ⟨hjob, prefetchJob_parsedAs hhost hslash (hcalls.foundLink r hmem) hprefetched
    hrequestable⟩

theorem dispatch_coversLinks_oneLink : ∃ (s' : DispatchState) (tr : Trace)
    (out : Except Fault Unit),
    dispatching.Run ⟨⟨text "<a href=\"/x\">", 0⟩, []⟩
      (dispatchPrefetchJobs 30 (some 0) (text "a")) tr s' out ∧
    CoversLinks (text "<a href=\"/x\">") (text "a") s'.pushed := by
  have htotal (s : DispatchState) (op : Op) : ∃ r, dispatching.answers s op r :=
    scanning_total s.file op
  have hreach : InReach (text "<a href=\"/x\">") := by
    have hpage : text "<a href=\"/x\">" =
        text "<a " ++ (text "href=" ++ 34 :: (text "/x" ++ 34 :: text ">")) := rfl
    exact .next hpage (by decide +kernel) (by decide) (by decide) (by decide) (.none (by decide))
  obtain ⟨tr, s', out, hrun⟩ := exists_run htotal
    (dispatchPrefetchJobs 30 (some 0) (text "a")) ⟨⟨text "<a href=\"/x\">", 0⟩, []⟩
  exact ⟨s', tr, out, hrun,
    dispatch_coversLinks parsedHost_a (by decide) (by decide) hreach (by decide) hrun⟩

end HttpProxy
