import HttpProxy.LinkSearch

/-!
# Scanning a file comes to an end

Every call of `find_href` moves on in the file, so the loop of `dispatch_prefetch_jobs` makes
no more calls than the file has bytes, and one.  What can keep a call from returning is the
copy of a link that is longer than the buffer of the caller: the bytes behind a chunk are left
from before, and the closing quote may stand among them.
-/

namespace HttpProxy

open CString Interaction Protocol

variable {content buffer old a b t : List UInt8} {p fuel : ℕ} {file : FileHandle}
  {hostname : List UInt8}

/-! ## The links of a search -/

/-- The buffer after the read at position `p`. -/
def window (content : List UInt8) (p : ℕ) (old : List UInt8) : List UInt8 :=
  overlay ((OpenFile.mk content p).read maxUrlSize) old

/-- The link behind the first `href=`, if it is closed, has room in the buffer for links. -/
def FirstLinkFits (buffer : List UInt8) : Prop :=
  ∀ a b, cstr buffer 0 = a ++ text "href=" ++ b → ¬text "href=" <:+: a →
    34 ∈ cstr buffer (a.length + 6) → 34 ∈ (cstr buffer (a.length + 6)).take (maxUrlSize + 1)

/-- A search from position `p` with these bytes in the buffer finds no link that is too long:
chunks are read until one shows an `href=`, and its link fits. -/
inductive ScanFits (content : List UInt8) : ℕ → List UInt8 → Prop
  | ended {p : ℕ} {old : List UInt8} (h : content.length ≤ p) : ScanFits content p old
  | next {p : ℕ} {old : List UInt8} (h : p < content.length)
      (hno : ¬text "href=" <:+: cstr (window content p old) 0)
      (hrest : ScanFits content (p + ((OpenFile.mk content p).read maxUrlSize).length)
        (window content p old)) : ScanFits content p old
  | found {p : ℕ} {old : List UInt8} (h : p < content.length)
      (hhref : text "href=" <:+: cstr (window content p old) 0)
      (hfits : FirstLinkFits (window content p old)) : ScanFits content p old

theorem scanFits_of_noLink (h : p < content.length)
    (hno : ¬text "href=" <:+: cstr (window content p old) 0) :
    ScanFits content p old ↔
      ScanFits content (p + ((OpenFile.mk content p).read maxUrlSize).length)
        (window content p old) := by
  constructor
  · intro hfits
    cases hfits with
    | ended hend => omega
    | next _ _ hrest => exact hrest
    | found _ hhref _ => exact absurd hhref hno
  · exact fun hrest ↦ .next h hno hrest

theorem scanFits_of_href (h : p < content.length)
    (hhref : text "href=" <:+: cstr (window content p old) 0) :
    ScanFits content p old ↔ FirstLinkFits (window content p old) := by
  constructor
  · intro hfits
    cases hfits with
    | ended hend => omega
    | next _ hno _ => exact absurd hhref hno
    | found _ _ hfits => exact hfits
  · exact fun hfits ↦ .found h hhref hfits

theorem length_first_href_le {a' b' : List UInt8}
    (h : a ++ text "href=" ++ b = a' ++ text "href=" ++ b') (hno : ¬text "href=" <:+: a') :
    a'.length ≤ a.length := by
  by_contra hlt
  have ha : a <+: a ++ text "href=" ++ b := by
    rw [List.append_assoc]
    exact List.prefix_append _ _
  have ha' : a' <+: a ++ text "href=" ++ b := by
    rw [h, List.append_assoc]
    exact List.prefix_append _ _
  obtain ⟨w, rfl⟩ := List.prefix_of_prefix_length_le ha ha' (by omega)
  have hw : w ≠ [] := by
    rintro rfl
    simp at hlt
  have hstart : text "href=" <+: w ++ text "href=" ++ b' := by
    refine ⟨b, ?_⟩
    simpa only [List.append_assoc, List.append_cancel_left_eq] using h
  exact hno (List.infix_append_of_infix_right (href_ends_before hstart hw).isInfix)

/-- What stands behind the first `href=` decides whether its link fits. -/
theorem firstLinkFits_iff (hs : cstr buffer 0 = a ++ text "href=" ++ b)
    (hno : ¬text "href=" <:+: a) :
    FirstLinkFits buffer ↔ (34 ∈ cstr buffer (a.length + 6) →
      34 ∈ (cstr buffer (a.length + 6)).take (maxUrlSize + 1)) := by
  constructor
  · exact fun hfits ↦ hfits a b hs hno
  · intro hfits a' b' hs' hno'
    have hsame : a ++ text "href=" ++ b = a' ++ text "href=" ++ b' := hs.symm.trans hs'
    have hlength : a'.length = a.length :=
      Nat.le_antisymm (length_first_href_le hsame hno') (length_first_href_le hsame.symm hno)
    rw [hlength]
    exact hfits

/-- A closing quote is in reach of the buffer for links, or there is none. -/
theorem linkFrom_fits {start : ℕ} :
    (34 ∈ cstr buffer start → 34 ∈ (cstr buffer start).take (maxUrlSize + 1)) ↔
      ∀ closingQuote, linkFrom buffer start = .link start closingQuote →
        ¬maxUrlSize < closingQuote - start := by
  unfold linkFrom
  by_cases hmem : 34 ∈ cstr buffer start
  · obtain ⟨link, rest, hs, hquote⟩ := List.eq_append_cons_of_mem hmem
    rw [strchr_of_append_cons (by decide) hs hquote, hs]
    simp only [ScanResult.link.injEq, true_and, forall_eq', Nat.add_sub_cancel_left, Nat.not_lt]
    constructor
    · intro htake
      have hin := htake (by simp)
      by_contra hlong
      rw [List.take_append_of_le_length (by omega)] at hin
      exact hquote (List.mem_of_mem_take hin)
    · intro hshort _
      rw [List.take_append, List.take_of_length_le (by omega)]
      apply List.mem_append_right
      obtain ⟨k, hk⟩ : ∃ k, maxUrlSize + 1 - link.length = k + 1 := ⟨maxUrlSize - link.length, by
        omega⟩
      rw [hk, List.take_succ_cons]
      exact List.mem_cons_self
  · rw [strchr_eq_none (by decide) hmem]
    simp [hmem]

/-! ## One call -/

/-- A call has returned, and further on in the file if it is not at the end. -/
def Returns (p : ℕ) (s' : OpenFile) (out : Except Fault HrefResult) : Prop :=
  ∃ result, out = .ok result ∧ (result ≠ .finished → p < s'.position)

/-- After the first `href=` a search returns, unless its link is too long. -/
theorem keepsAfter_linkFrom {Q : OpenFile → Except Fault HrefResult → Prop} {s : OpenFile}
    {start : ℕ} (hQ : ∀ s' out, ((∃ result, out = .ok result) ↔
      ∀ closingQuote, linkFrom buffer start = .link start closingQuote →
        ¬maxUrlSize < closingQuote - start) → Q s' out) :
    KeepsAfter fuel file buffer Q s (linkFrom buffer start) := by
  unfold linkFrom at hQ ⊢
  cases hsearch : strchr buffer start 34 with
  | none =>
      rw [hsearch] at hQ
      exact hQ _ _ ⟨by rintro - _ ⟨⟩, fun _ ↦ ⟨_, rfl⟩⟩
  | some closingQuote =>
      rw [hsearch] at hQ
      simp only [KeepsAfter]
      split
      next hlong =>
        apply hQ
        constructor
        · rintro ⟨_, ⟨⟩⟩
        · exact fun h ↦ absurd hlong (h closingQuote rfl)
      next hshort =>
        apply hQ
        refine ⟨fun _ quote hquote ↦ ?_, fun _ ↦ ⟨_, rfl⟩⟩
        cases hquote
        exact hshort

/-- A call that does not return has found a link that is too long. -/
theorem keeps_findHrefLoop_fits (hfuel : content.length - p < fuel) :
    scanning.Keeps (findHrefLoop fuel file old)
      (fun _ out ↦ ((∃ result, out = .ok result) ↔ ScanFits content p old) ∧
        (content.length ≤ p → out = .ok .finished)) ⟨content, p⟩ := by
  induction fuel generalizing p old with
  | zero => omega
  | succ fuel ih =>
      by_cases hend : content.length ≤ p
      · have hread : (OpenFile.mk content p).read maxUrlSize = [] := by
          rw [OpenFile.read, List.drop_of_length_le hend, List.take_nil]
        apply keeps_findHrefLoop_finished hread
        exact ⟨⟨fun _ ↦ .ended hend, fun _ ↦ ⟨_, rfl⟩⟩, fun _ ↦ rfl⟩
      · have hlt : p < content.length := Nat.lt_of_not_le hend
        have hne : (OpenFile.mk content p).read maxUrlSize ≠ [] := by
          apply List.ne_nil_of_length_pos
          have hmax : 0 < maxUrlSize := by decide
          rw [length_read]
          simp only [OpenFile.left]
          omega
        have hpos := List.length_pos_iff.mpr hne
        have hlength : (cstr (window content p old) 0).length <
            (window content p old).length + 1 := by
          have := length_cstr_le (window content p old) 0
          omega
        by_cases hhref : text "href=" <:+: cstr (window content p old) 0
        · obtain ⟨a, b, hs, hno⟩ := exists_first_href hhref
          have hsearch : searchBuffer (window content p old) =
              .ok (linkFrom (window content p old) (a.length + 6)) := by
            rw [hs] at hlength
            simp only [List.length_append] at hlength
            have hfuel : a.length < (window content p old).length + 1 := by
              omega
            have hsome := scanHref_some hs hno hfuel
            rwa [Nat.zero_add] at hsome
          rw [scanFits_of_href hlt hhref, firstLinkFits_iff hs hno, linkFrom_fits]
          apply keeps_findHrefLoop_read _ hne hsearch
          apply keepsAfter_linkFrom
          intro s' out hout
          exact ⟨hout, fun hge ↦ absurd hge hend⟩
        · have hsearch : searchBuffer (window content p old) = .ok .noLink :=
            scanHref_none rfl hhref hlength
          rw [scanFits_of_noLink hlt hhref]
          apply keeps_findHrefLoop_read .noLink hne hsearch
          have hless : content.length -
              (p + ((OpenFile.mk content p).read maxUrlSize).length) < fuel := by
            omega
          apply (ih hless).mono
          rintro s' out ⟨hout, -⟩
          exact ⟨hout, fun hge ↦ absurd hge hend⟩

/-- What a call comes to: it returns exactly if its link fits, and then further on. -/
structure Scanned (content : List UInt8) (p : ℕ) (old : List UInt8) (s' : OpenFile)
    (out : Except Fault HrefResult) : Prop where
  same : s'.content = content
  returned : ∀ result, out = .ok result →
    ScanFits content p old ∧ (result ≠ .finished → p < s'.position)
  error : ∀ fault, out = .error fault → ¬ScanFits content p old
  ended : content.length ≤ p → out = .ok .finished

theorem Scanned.returns_iff {s' : OpenFile} {out : Except Fault HrefResult}
    (h : Scanned content p old s' out) : Returns p s' out ↔ ScanFits content p old := by
  constructor
  · rintro ⟨result, hresult, -⟩
    exact (h.returned result hresult).1
  · intro hfits
    cases out with
    | error fault => exact absurd hfits (h.error fault rfl)
    | ok result => exact ⟨result, rfl, (h.returned result rfl).2⟩

theorem keeps_findHrefLoop_scanned (hfuel : content.length - p < fuel) :
    scanning.Keeps (findHrefLoop fuel file old) (Scanned content p old) ⟨content, p⟩ := by
  have hgoesOn : scanning.Keeps (findHrefLoop fuel file old) (GoesOn ⟨content, p⟩)
      ⟨content, p⟩ :=
    keeps_findHrefLoop_goesOn hfuel
  apply (hgoesOn.and (keeps_findHrefLoop_fits hfuel)).mono
  rintro s' out ⟨⟨hcontent, hgoesOn⟩, hfits, hended⟩
  refine ⟨hcontent, ?_, ?_, hended⟩
  · rintro result rfl
    refine ⟨hfits.mp ⟨result, rfl⟩, fun hne ↦ ?_⟩
    cases result with
    | finished => exact absurd rfl hne
    | fail => exact hgoesOn
    | success link =>
        simp only at hgoesOn
        omega
  · rintro fault rfl
    rw [← hfits]
    rintro ⟨_, ⟨⟩⟩

/-! ## The loop over the calls -/

/-- The file, and for each call of `find_href` so far the position and the bytes its buffer
held. -/
structure ScanState where
  file : OpenFile
  calls : List (ℕ × List UInt8)

/-- A file that is only read from, with the calls made on it. -/
def logScans : Protocol Resp ScanState where
  requires _ _ := True
  answers s := scanning.answers s.file
  next s op answer :=
    match op, answer with
    | .indeterminate _, old => { s with calls := s.calls ++ [(s.file.position, old.val)] }
    | op, answer => { s with file := scanning.next s.file op answer }

theorem logScans_file (s : ScanState) (op : Op) (answer : Resp op) :
    (logScans.next s op answer).file = scanning.next s.file op answer := by
  cases op <;> rfl

/-- A call is logged, and does to the file what it does alone. -/
theorem keeps_findHref_logged {s : ScanState} (hcontent : s.file.content = content)
    (hfuel : content.length - s.file.position < fuel) :
    logScans.Keeps (findHref fuel file)
      (fun s' out ↦ ∃ old, s'.calls = s.calls ++ [(s.file.position, old)] ∧
        Scanned content s.file.position old s'.file out) s := by
  subst hcontent
  simp only [findHref, indeterminate_bind, keeps_call]
  refine ⟨trivial, fun old _ ↦ ?_⟩
  have hfile : logScans.Keeps (findHrefLoop fuel file old.val)
      (fun s' out ↦ Scanned s.file.content s.file.position old.val s'.file out)
      (logScans.next s (.indeterminate (jobRequestBufferSize + 1)) old) :=
    Keeps.comap (t := logScans.next s (.indeterminate (jobRequestBufferSize + 1)) old)
      ScanState.file (findHrefLoop_reads _ _ _) (fun _ _ _ _ ↦ trivial) (fun _ _ _ _ h ↦ h)
      (fun t op r _ ↦ logScans_file t op r) (keeps_findHrefLoop_scanned hfuel)
  have hcalls : logScans.Keeps (findHrefLoop fuel file old.val)
      (fun s' _ ↦ s'.calls =
        (logScans.next s (.indeterminate (jobRequestBufferSize + 1)) old).calls)
      (logScans.next s (.indeterminate (jobRequestBufferSize + 1)) old) := by
    apply keeps_of_calls ScanState.calls (findHrefLoop_reads _ _ _) (fun _ _ _ ↦ trivial)
    intro s op hop answer
    cases op <;> first | rfl | cases hop
  apply (hcalls.and hfile).mono
  rintro s' out ⟨hlog, hscanned⟩
  exact ⟨old.val, hlog, hscanned⟩

/-- The loop over the calls: no more of them than what is left of the file, and one, and it
ends as it should if and only if every call does. -/
def ScansFile (s s' : ScanState) (out : Except Fault Unit) : Prop :=
  ∃ calls, s'.calls = s.calls ++ calls ∧ calls.length ≤ s.file.left + 1 ∧
    (out = .ok () ↔ ∀ call ∈ calls, ScanFits s.file.content call.1 call.2)

/-- One call more, after which the file is left further on. -/
theorem ScansFile.cons {s s₁ s' : ScanState} {old : List UInt8} {out : Except Fault Unit}
    (h : ScansFile s₁ s' out) (hcalls : s₁.calls = s.calls ++ [(s.file.position, old)])
    (hcontent : s₁.file.content = s.file.content) (hleft : s₁.file.left < s.file.left)
    (hfits : ScanFits s.file.content s.file.position old) : ScansFile s s' out := by
  obtain ⟨calls, hlog, hlength, hout⟩ := h
  refine ⟨(s.file.position, old) :: calls, ?_, ?_, ?_⟩
  · rw [hlog, hcalls, List.append_assoc, List.singleton_append]
  · rw [List.length_cons]
    omega
  · rw [hout, hcontent, List.forall_mem_cons]
    exact ⟨fun h ↦ ⟨hfits, h⟩, fun h ↦ h.2⟩

theorem keeps_dispatchLoop_scans {s : ScanState} (hfuel : s.file.left + 1 < fuel) :
    logScans.Keeps (dispatchLoop fuel file hostname) (ScansFile s) s := by
  induction fuel generalizing s with
  | zero => omega
  | succ fuel ih =>
      have hleft : s.file.content.length - s.file.position < fuel := by
        simp only [OpenFile.left] at hfuel
        omega
      apply (keeps_findHref_logged rfl hleft).bind
      · rintro s₁ result ⟨old, hcalls, hscanned⟩
        have hgoes : result ≠ .finished → s₁.file.left < s.file.left ∧
            ScanFits s.file.content s.file.position old := by
          intro hne
          obtain ⟨hfits, hlater⟩ := hscanned.returned result rfl
          have hmore : s.file.position < s.file.content.length := by
            by_contra hend
            exact hne (Except.ok.inj (hscanned.ended (Nat.le_of_not_lt hend)))
          have := hlater hne
          refine ⟨?_, hfits⟩
          simp only [OpenFile.left, hscanned.same]
          omega
        cases result with
        | finished =>
            have hfits := (hscanned.returned .finished rfl).1
            exact ⟨[(s.file.position, old)], hcalls, by simp, by simp [hfits]⟩
        | fail =>
            obtain ⟨hless, hfits⟩ := hgoes (by simp)
            apply (ih (s := s₁) (by omega)).mono
            exact fun s' out h ↦ h.cons hcalls hscanned.same hless hfits
        | success foundLink =>
            obtain ⟨hless, hfits⟩ := hgoes (by simp)
            simp only
            split
            · simp only [jobStackPushJob_bind, keeps_call]
              refine ⟨trivial, fun pushed _ ↦ ?_⟩
              have hpushed : logScans.next s₁ (.jobStackPush (prefetchJob hostname foundLink))
                  pushed = s₁ := rfl
              rw [hpushed]
              apply (ih (s := s₁) (by omega)).mono
              exact fun s' out h ↦ h.cons hcalls hscanned.same hless hfits
            · apply (ih (s := s₁) (by omega)).mono
              exact fun s' out h ↦ h.cons hcalls hscanned.same hless hfits
      · rintro s₁ fault ⟨old, hcalls, hscanned⟩
        refine ⟨[(s.file.position, old)], hcalls, by simp, ?_⟩
        have herror := hscanned.error fault rfl
        simp [herror]

/-! ## The whole scan -/

/-- Whatever the file is asked for, the call at position `p` returns. -/
def CallReturns (content : List UInt8) (p : ℕ) (old : List UInt8) : Prop :=
  ∀ fuel file, content.length < fuel →
    scanning.Keeps (findHrefLoop fuel file old) (Returns p) ⟨content, p⟩

/-- A scan of the file ends: each call of `find_href` returns, further on in the file or at its
end, and the loop over the calls ends after no more of them than the file has bytes, and one. -/
structure ScanEnds (content : List UInt8) (calls : List (ℕ × List UInt8))
    (out : Except Fault Unit) : Prop where
  returns : ∀ call ∈ calls, CallReturns content call.1 call.2
  bounded : calls.length ≤ content.length + 1
  ends : out = .ok ()

theorem callReturns_iff (content : List UInt8) (p : ℕ) (old : List UInt8) :
    CallReturns content p old ↔ ScanFits content p old := by
  constructor
  · intro h
    have hscan : scanning.Keeps (findHrefLoop (content.length + 1) 0 old)
        (Scanned content p old) ⟨content, p⟩ :=
      keeps_findHrefLoop_scanned (by omega)
    have hkeeps := (h (content.length + 1) 0 (Nat.lt_succ_self _)).and hscan
    obtain ⟨tr, s', out, hrun⟩ :=
      exists_run scanning_total (findHrefLoop (content.length + 1) 0 old) ⟨content, p⟩
    obtain ⟨hreturns, hscanned⟩ := hrun.keeps hkeeps
    exact hscanned.returns_iff.mp hreturns
  · intro hfits fuel file hfuel
    apply (keeps_findHrefLoop_scanned (by omega)).mono
    exact fun s' out hscanned ↦ hscanned.returns_iff.mpr hfits

theorem run_dispatchPrefetchJobs_scans {tr : Trace} {s' : ScanState} {out : Except Fault Unit}
    (hfuel : content.length + 1 < fuel)
    (h : logScans.Run ⟨⟨content, p⟩, []⟩ (dispatchPrefetchJobs fuel (some file) hostname) tr s'
      out) :
    s'.calls.length ≤ content.length + 1 ∧
      (out = .ok () ↔ ∀ call ∈ s'.calls, ScanFits content call.1 call.2) := by
  have hkeeps : logScans.Keeps (dispatchPrefetchJobs fuel (some file) hostname)
      (ScansFile ⟨⟨content, 0⟩, []⟩) ⟨⟨content, p⟩, []⟩ := by
    simp only [dispatchPrefetchJobs, nonNullFile, Prog.ret_bind, fseek_bind, keeps_call]
    refine ⟨trivial, fun answer _ ↦ ?_⟩
    exact keeps_dispatchLoop_scans (s := ⟨⟨content, 0⟩, []⟩) hfuel
  obtain ⟨calls, hlog, hlength, hout⟩ := h.keeps hkeeps
  rw [List.nil_append] at hlog
  rw [hlog]
  exact ⟨hlength, hout⟩

/-- A call of `find_href` with these bytes in its buffer returns, and then further on in the file
or at its end, if and only if it finds no link that is too long; the loop over the calls makes no
more of them than the file has bytes, and one, and ends if and only if its calls return. -/
theorem linkScan_ends_iff (content : List UInt8) :
    (∀ p old, CallReturns content p old ↔ ScanFits content p old) ∧
      ∀ p fuel file hostname tr s' out, content.length + 1 < fuel →
        logScans.Run ⟨⟨content, p⟩, []⟩ (dispatchPrefetchJobs fuel (some file) hostname) tr s'
          out →
        s'.calls.length ≤ content.length + 1 ∧
          (ScanEnds content s'.calls out ↔
            ∀ call ∈ s'.calls, ScanFits content call.1 call.2) := by
  refine ⟨callReturns_iff content, fun p fuel file hostname tr s' out hfuel hrun ↦ ?_⟩
  obtain ⟨hbounded, hout⟩ := run_dispatchPrefetchJobs_scans hfuel hrun
  refine ⟨hbounded, fun h ↦ hout.mp h.ends, fun hfits ↦ ?_⟩
  exact ⟨fun call hcall ↦ (callReturns_iff _ _ _).mpr (hfits call hcall), hbounded,
    hout.mpr hfits⟩

/-- A file that ends behind `href="`, and a quote far behind it in the buffer. -/
theorem not_scanFits_farQuote {n m : ℕ} (hn : maxUrlSize < n) :
    ¬ScanFits (text "href=\"") 0 (List.replicate (6 + n) 97 ++ 34 :: 0 :: List.replicate m 0) := by
  have hwindow : window (text "href=\"") 0
      (List.replicate (6 + n) 97 ++ 34 :: 0 :: List.replicate m 0) =
        text "href=" ++ 34 :: (List.replicate n 97 ++ [34] ++ 0 :: List.replicate m 0) := by
    have hread : (OpenFile.mk (text "href=\"") 0).read maxUrlSize = text "href=" ++ [34] := by
      decide
    have hlength : (text "href=" ++ [34]).length = 6 := by decide
    have hdrop : (List.replicate (6 + n) (97 : UInt8) ++ 34 :: 0 :: List.replicate m 0).drop 6 =
        List.replicate n 97 ++ 34 :: 0 :: List.replicate m 0 := by
      rw [← List.replicate_append_replicate, List.append_assoc,
        List.drop_left' (List.length_replicate ..)]
    rw [window, overlay, hread, hlength, hdrop]
    simp only [List.append_assoc, List.cons_append, List.nil_append]
  have hnul : 0 ∉ List.replicate n (97 : UInt8) ++ [34] := by simp
  have hbehind : cstr (window (text "href=\"") 0
      (List.replicate (6 + n) 97 ++ 34 :: 0 :: List.replicate m 0))
        (([] : List UInt8).length + 6) = List.replicate n 97 ++ [34] := by
    have hskip := cstr_behind_href [] 34 (List.replicate n 97 ++ [34] ++ 0 :: List.replicate m 0)
    rw [List.nil_append] at hskip
    rw [hwindow, hskip, cstr_append_nul hnul]
  have hs : cstr (window (text "href=\"") 0
      (List.replicate (6 + n) 97 ++ 34 :: 0 :: List.replicate m 0)) 0 =
        [] ++ text "href=" ++ 34 :: (List.replicate n 97 ++ [34]) := by
    have hsplit : text "href=" ++
        34 :: (List.replicate n 97 ++ [34] ++ 0 :: List.replicate m 0) =
          (text "href=" ++ 34 :: (List.replicate n 97 ++ [34])) ++ 0 :: List.replicate m 0 := by
      simp
    rw [hwindow, hsplit, cstr_append_nul, List.nil_append]
    simp only [List.mem_append, List.mem_cons, not_or] at hnul ⊢
    exact ⟨by decide, by decide, hnul⟩
  rw [scanFits_of_href (by decide) ⟨[], _, hs.symm⟩, firstLinkFits_iff hs (by decide), hbehind]
  intro hreach
  have hin := hreach (by simp)
  rw [List.take_append_of_le_length (by rw [List.length_replicate]; omega),
    List.take_replicate] at hin
  simp at hin

theorem farQuote_does_not_return :
    ¬∀ (content : List UInt8) (p : ℕ) (old : List UInt8),
      old.length = jobRequestBufferSize + 1 → CallReturns content p old := by
  intro hall
  have hreturns := hall (text "href=\"") 0
    (List.replicate (6 + 2049) 97 ++ 34 :: 0 :: List.replicate 2040 0) ?_
  · exact not_scanFits_farQuote (by decide) ((callReturns_iff _ _ _).mp hreturns)
  · rw [List.length_append, List.length_cons, List.length_cons, List.length_replicate,
      List.length_replicate]
    rfl

end HttpProxy
