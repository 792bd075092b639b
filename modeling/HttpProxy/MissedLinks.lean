import HttpProxy.PhantomLinks

/-!
# Links that are missed

Calling `find_href` until the end of the file returns every link of the file, and the same
results up to the last of them whatever its buffer holds, if and only if each search ends in the
first chunk that is read for it and at no quote that opens a link.
-/

namespace HttpProxy

open CString Interaction Protocol

variable {content t u v a b link link' : List UInt8} {results first : List (List UInt8 × ℕ)}
  {r : List UInt8 × ℕ} {c x : UInt8} {p q j fuel : ℕ} {file : FileHandle}

/-- The link of an `href="..."` that starts here. -/
def linkAt? (t : List UInt8) : Option (List UInt8) :=
  if text "href=\"" <+: t ∧ 34 ∈ t.drop 6 then some ((t.drop 6).takeWhile (· ≠ 34)) else none

/-- Every `href="..."` of a text that starts at `p`, as its link and the place of its closing
quote. -/
def occurrences (p : ℕ) : List UInt8 → List (List UInt8 × ℕ)
  | [] => []
  | c :: t =>
      match linkAt? (c :: t) with
      | none => occurrences (p + 1) t
      | some link => (link, p + 6 + link.length) :: occurrences (p + 1) t

/-- The results of the calls of `find_href` from this position to the end of the file, without
those that fail. -/
inductive HrefCalls (content : List UInt8) : ℕ → List (List UInt8 × ℕ) → Prop
  | finished {p fuel : ℕ} {file : FileHandle} {tr : Trace} {s : OpenFile}
      (hfuel : content.length < fuel)
      (h : scanning.Run ⟨content, p⟩ (findHref fuel file) tr s (.ok .finished)) :
      HrefCalls content p []
  | fault {p fuel : ℕ} {file : FileHandle} {tr : Trace} {s : OpenFile} {fault : Fault}
      (hfuel : content.length < fuel)
      (h : scanning.Run ⟨content, p⟩ (findHref fuel file) tr s (.error fault)) :
      HrefCalls content p []
  | fail {p fuel : ℕ} {file : FileHandle} {tr : Trace} {s : OpenFile}
      {results : List (List UInt8 × ℕ)} (hfuel : content.length < fuel)
      (h : scanning.Run ⟨content, p⟩ (findHref fuel file) tr s (.ok .fail))
      (hs : HrefCalls content s.position results) : HrefCalls content p results
  | success {p fuel : ℕ} {file : FileHandle} {tr : Trace} {s : OpenFile} {link : List UInt8}
      {results : List (List UInt8 × ℕ)} (hfuel : content.length < fuel)
      (h : scanning.Run ⟨content, p⟩ (findHref fuel file) tr s (.ok (.success link)))
      (hs : HrefCalls content s.position results) :
      HrefCalls content p ((link, s.position) :: results)

/-- However the calls go, they start with the same results.  Among these are the links of the
file, in order and each of them once, and none is returned later. -/
def ReturnsAll (content : List UInt8) : Prop :=
  ∃ first, first.filter (· ∈ occurrences 0 content) = occurrences 0 content ∧
    ∀ results, HrefCalls content 0 results →
      ∃ more, results = first ++ more ∧ ∀ r ∈ more, r ∉ occurrences 0 content

/-- As long as a link is left, the first `href=` has its closing quote in the chunk that is read
first, and the quote does not open a link. -/
inductive InReach : List UInt8 → Prop
  | none {t : List UInt8} (h : occurrences 0 t = []) : InReach t
  | next {t a link b : List UInt8} {x : UInt8}
      (ht : t = a ++ (text "href=" ++ x :: (link ++ 34 :: b))) (hno : ¬text "href=" <:+: a)
      (hquote : 34 ∉ link) (hchunk : a.length + 6 + link.length < maxUrlSize)
      (hnest : ¬(text "href=" <:+ x :: link ∧ 34 ∈ b)) (h : InReach (34 :: b)) : InReach t

/-! ## Occurrences -/

theorem linkAt?_eq_some (hquote : 34 ∉ link) :
    linkAt? (text "href=\"" ++ (link ++ 34 :: b)) = some link := by
  have hdrop : (text "href=\"" ++ (link ++ 34 :: b)).drop 6 = link ++ 34 :: b := rfl
  rw [linkAt?, hdrop, if_pos ⟨List.prefix_append _ _, by simp⟩, takeWhile_ne_append_cons hquote]

theorem linkAt?_some (h : linkAt? t = some link) :
    ∃ b, t = text "href=\"" ++ (link ++ 34 :: b) ∧ 34 ∉ link := by
  unfold linkAt? at h
  split at h
  next hlink =>
    obtain ⟨⟨rest, rfl⟩, hmem⟩ := hlink
    have hdrop : (text "href=\"" ++ rest).drop 6 = rest := rfl
    rw [hdrop] at h hmem
    obtain ⟨l, b, rfl, hl⟩ := List.eq_append_cons_of_mem hmem
    rw [takeWhile_ne_append_cons hl] at h
    cases h
    exact ⟨b, rfl, hl⟩
  next => cases h

theorem occurrences_cons_none (h : linkAt? (c :: t) = none) :
    occurrences p (c :: t) = occurrences (p + 1) t := by
  rw [occurrences, h]

theorem occurrences_cons_some (h : linkAt? (c :: t) = some link) :
    occurrences p (c :: t) = (link, p + 6 + link.length) :: occurrences (p + 1) t := by
  rw [occurrences, h]

theorem occurrences_tail_subset (p : ℕ) (c : UInt8) (t : List UInt8) :
    occurrences (p + 1) t ⊆ occurrences p (c :: t) := by
  cases h : linkAt? (c :: t) with
  | none => rw [occurrences_cons_none h]; exact List.Subset.refl _
  | some link => rw [occurrences_cons_some h]; exact List.subset_cons_self _ _

/-- Where no link starts, none occurs. -/
theorem occurrences_append (h : ∀ w, w <:+ u → w ≠ [] → linkAt? (w ++ v) = none) :
    occurrences p (u ++ v) = occurrences (p + u.length) v := by
  induction u generalizing p with
  | nil => rfl
  | cons c u ih =>
      have hhere : linkAt? (c :: (u ++ v)) = none := h _ List.suffix_rfl (List.cons_ne_nil _ _)
      rw [List.cons_append, occurrences_cons_none hhere,
        ih fun w hw ↦ h w (hw.trans (List.suffix_cons _ _)), List.length_cons, Nat.add_assoc,
        Nat.add_comm 1]

theorem mem_occurrences (h : (link, j) ∈ occurrences p t) :
    ∃ a b, t = a ++ (text "href=\"" ++ (link ++ 34 :: b)) ∧ 34 ∉ link ∧
      j = p + (a.length + 6 + link.length) := by
  induction t generalizing p with
  | nil => cases h
  | cons c t ih =>
      have hlater (h : (link, j) ∈ occurrences (p + 1) t) :
          ∃ a b, c :: t = a ++ (text "href=\"" ++ (link ++ 34 :: b)) ∧ 34 ∉ link ∧
            j = p + (a.length + 6 + link.length) := by
        obtain ⟨a, b, rfl, hquote, rfl⟩ := ih h
        refine ⟨c :: a, b, rfl, hquote, ?_⟩
        rw [List.length_cons]
        omega
      rw [occurrences] at h
      split at h
      next => exact hlater h
      next link' hlink =>
        rcases List.mem_cons.mp h with heq | h
        · cases heq
          obtain ⟨b, ht, hquote⟩ := linkAt?_some hlink
          exact ⟨[], b, ht, hquote, by simp [Nat.add_assoc]⟩
        · exact hlater h

theorem mem_occurrences_of_append (hquote : 34 ∉ link) :
    (link, p + (a.length + 6 + link.length)) ∈
      occurrences p (a ++ (text "href=\"" ++ (link ++ 34 :: b))) := by
  induction a generalizing p with
  | nil =>
      have hlink := linkAt?_eq_some (b := b) hquote
      have hsplit : text "href=\"" ++ (link ++ 34 :: b) =
          104 :: (text "ref=\"" ++ (link ++ 34 :: b)) := rfl
      rw [List.nil_append, hsplit, occurrences_cons_some (hsplit ▸ hlink), List.length_nil,
        Nat.zero_add, Nat.add_assoc]
      exact List.mem_cons_self
  | cons c a ih =>
      have hplace : p + ((c :: a).length + 6 + link.length) =
          p + 1 + (a.length + 6 + link.length) := by
        rw [List.length_cons]
        omega
      rw [hplace]
      exact occurrences_tail_subset _ _ _ ih

/-- In front of the first `href=` no link starts. -/
theorem linkAt?_in_front (hno : ¬text "href=" <:+: a) (hw : u <:+ a) (hne : u ≠ []) :
    linkAt? (u ++ (text "href=" ++ v)) = none := by
  by_contra hsome
  obtain ⟨link, hlink⟩ := Option.ne_none_iff_exists'.mp hsome
  obtain ⟨b, ht, -⟩ := linkAt?_some hlink
  have hpre : text "href=" <+: u ++ text "href=" ++ v := by
    rw [List.append_assoc, ht, href_quote]
    exact List.prefix_append _ _
  exact hno ((href_ends_before hpre hne).isInfix.trans hw.isInfix)

/-- Between the start of an `href=` and its closing quote a link starts only with an `href=` at
the end. -/
theorem linkAt?_inside (hquote : 34 ∉ link) (hu : u <:+ text "ref=" ++ x :: link) (hne : u ≠ [])
    (h : linkAt? (u ++ 34 :: b) = some link') : u <:+ x :: link ∧ u = text "href=" ∧ 34 ∈ b := by
  obtain ⟨b', ht, -⟩ := linkAt?_some h
  rw [href_quote] at ht
  obtain ⟨d, u, rfl⟩ := List.exists_cons_of_ne_nil hne
  obtain rfl : d = 104 := (List.cons.inj ht).1
  have hin : 104 :: u <:+ x :: link := by
    rcases List.suffix_or_suffix_of_suffix hu (List.suffix_append _ _) with hin | ⟨y, hy⟩
    · exact hin
    · cases y with
      | nil => exact hy ▸ List.suffix_rfl
      | cons d y =>
          -- The first byte is one of `ref=`.
          obtain ⟨z, hz⟩ := hu
          rw [← hy, ← List.append_assoc] at hz
          have hmem : d ∈ text "ref=" := by
            rw [← List.append_cancel_right hz]
            simp
          obtain rfl : d = 104 := (List.cons.inj hy).1
          exact absurd hmem (by decide)
  have hquote' : 34 ∉ 104 :: u := by
    rcases List.suffix_cons_iff.mp hin with heq | hsuffix
    · obtain ⟨rfl, rfl⟩ := List.cons.inj heq
      simp [hquote]
    · exact fun hmem ↦ hquote (hsuffix.subset hmem)
  obtain ⟨hhref, rfl⟩ := first_split_unique ht hquote' (by decide)
  exact ⟨hin, hhref, by simp⟩

/-- The first `href=` of a text, which is that of a link or not, and the text behind its start. -/
theorem occurrences_first (hno : ¬text "href=" <:+: a) (hquote : 34 ∉ link) :
    occurrences p (a ++ (text "href=" ++ x :: (link ++ 34 :: b))) =
      (if x = 34 then [(link, p + (a.length + 6 + link.length))] else []) ++
        occurrences (p + (a.length + 1)) (text "ref=" ++ x :: (link ++ 34 :: b)) := by
  have hsplit : text "href=" ++ x :: (link ++ 34 :: b) =
      104 :: (text "ref=" ++ x :: (link ++ 34 :: b)) := rfl
  rw [occurrences_append fun w hw hne ↦ linkAt?_in_front hno hw hne, hsplit]
  split
  next hx =>
    subst hx
    have hlink : linkAt? (104 :: (text "ref=" ++ 34 :: (link ++ 34 :: b))) = some link :=
      linkAt?_eq_some hquote
    rw [occurrences_cons_some hlink]
    simp only [Nat.add_assoc, List.singleton_append]
  next hx =>
    have hnone : linkAt? (104 :: (text "ref=" ++ x :: (link ++ 34 :: b))) = none := by
      by_contra hsome
      obtain ⟨link', hlink⟩ := Option.ne_none_iff_exists'.mp hsome
      obtain ⟨b', ht, -⟩ := linkAt?_some hlink
      rw [← hsplit, href_quote] at ht
      exact hx (List.cons.inj (List.append_cancel_left ht)).1
    rw [occurrences_cons_none hnone, List.nil_append, Nat.add_assoc]

/-- Behind the start of an `href=` the next link starts at the closing quote, if none starts
before. -/
theorem occurrences_next (hquote : 34 ∉ link) (hnest : ¬(text "href=" <:+ x :: link ∧ 34 ∈ b)) :
    occurrences p (text "ref=" ++ x :: (link ++ 34 :: b)) =
      occurrences (p + (5 + link.length)) (34 :: b) := by
  have hlength : (text "ref=" ++ x :: link).length = 5 + link.length := by
    rw [List.length_append, List.length_cons, Nat.add_comm link.length, ← Nat.add_assoc]
    rfl
  have hsplit : text "ref=" ++ x :: (link ++ 34 :: b) = (text "ref=" ++ x :: link) ++ 34 :: b := by
    rw [List.append_assoc, List.cons_append]
  rw [hsplit, occurrences_append, hlength]
  intro w hw hne
  by_contra hsome
  obtain ⟨link', hlink'⟩ := Option.ne_none_iff_exists'.mp hsome
  obtain ⟨hin, rfl, hb⟩ := linkAt?_inside hquote hw hne hlink'
  exact hnest ⟨hin, hb⟩

/-- A link that is opened by the closing quote ends with the quote behind it. -/
theorem occurrences_nested (hnest : text "href=" <:+ x :: link) (hb : 34 ∈ b) :
    ∃ link', (link', p + (5 + link.length + 1 + link'.length)) ∈
      occurrences p (text "ref=" ++ x :: (link ++ 34 :: b)) := by
  obtain ⟨front, hfront⟩ := hnest
  obtain ⟨link', b', rfl, hlink'⟩ := List.eq_append_cons_of_mem hb
  have hsplit : text "ref=" ++ x :: (link ++ 34 :: (link' ++ 34 :: b')) =
      (text "ref=" ++ front) ++ (text "href=\"" ++ (link' ++ 34 :: b')) := by
    rw [href_quote, ← List.cons_append, ← hfront]
    simp only [List.append_assoc]
  have hplace : 5 + link.length + 1 + link'.length =
      (text "ref=" ++ front).length + 6 + link'.length := by
    have href : (text "ref=").length = 4 := rfl
    have hhref : (text "href=").length = 5 := rfl
    have hlength := congrArg List.length hfront
    simp only [List.length_append, List.length_cons, href, hhref] at hlength ⊢
    omega
  refine ⟨link', ?_⟩
  rw [hsplit, hplace]
  exact mem_occurrences_of_append hlink'

/-! ## Calls to the end of the file -/

theorem goesOn_of_run {tr : Trace} {s : OpenFile} {out : Except Fault HrefResult}
    (hfuel : content.length < fuel)
    (h : scanning.Run ⟨content, p⟩ (findHref fuel file) tr s out) : GoesOn ⟨content, p⟩ s out :=
  h.keeps (keeps_findHref fun _ ↦
    keeps_findHrefLoop_goesOn (Nat.lt_of_le_of_lt (Nat.sub_le _ _) hfuel))

/-- The links that are returned end one behind the other, and not before they have started. -/
theorem HrefCalls.increasing (h : HrefCalls content p results) :
    (∀ r ∈ results, p + 6 + r.1.length ≤ r.2) ∧ results.Pairwise fun r r' ↦ r.2 < r'.2 := by
  induction h with
  | finished => exact ⟨by simp, .nil⟩
  | fault => exact ⟨by simp, .nil⟩
  | @fail p fuel file tr s results hfuel h hs ih =>
      have hlater : p < s.position := (goesOn_of_run hfuel h).2
      refine ⟨fun r hr ↦ ?_, ih.2⟩
      have := ih.1 r hr
      omega
  | @success p fuel file tr s link results hfuel h hs ih =>
      have hlater : p + 6 + link.length ≤ s.position := (goesOn_of_run hfuel h).2
      refine ⟨List.forall_mem_cons.mpr ⟨hlater, fun r hr ↦ ?_⟩,
        List.pairwise_cons.mpr ⟨fun r hr ↦ ?_, ih.2⟩⟩
      · have := ih.1 r hr
        omega
      · have := ih.1 r hr
        simp only
        omega

/-- From every position the calls come to an end. -/
theorem exists_hrefCalls (content : List UInt8) (p : ℕ) :
    ∃ results, HrefCalls content p results := by
  have hfuel : content.length < content.length + 1 := Nat.lt_succ_self _
  induction hn : content.length - p using Nat.strong_induction_on generalizing p with
  | h n ih =>
      obtain ⟨tr, s, out, hrun⟩ :=
        exists_run scanning_total (findHref (content.length + 1) 0) ⟨content, p⟩
      rcases Nat.lt_or_ge p content.length with hlt | hend
      · have hgoesOn := (goesOn_of_run hfuel hrun).2
        have hlater (h : p < s.position) : ∃ results, HrefCalls content s.position results :=
          ih _ (by omega) s.position rfl
        rcases out with fault | (_ | _ | link)
        · exact ⟨[], .fault hfuel hrun⟩
        · exact ⟨[], .finished hfuel hrun⟩
        · obtain ⟨results, hs⟩ := hlater hgoesOn
          exact ⟨results, .fail hfuel hrun hs⟩
        · simp only at hgoesOn
          obtain ⟨results, hs⟩ := hlater (by omega)
          exact ⟨_, .success hfuel hrun hs⟩
      · have hread : (OpenFile.mk content p).read maxUrlSize = [] := by
          rw [OpenFile.read, List.drop_of_length_le hend, List.take_nil]
        have hkeeps : scanning.Keeps (findHref (content.length + 1) 0)
            (fun _ out ↦ out = .ok .finished) ⟨content, p⟩ :=
          keeps_findHref fun _ ↦ keeps_findHrefLoop_finished hread rfl
        obtain rfl := hrun.keeps hkeeps
        exact ⟨[], .finished hfuel hrun⟩

/-! ## Links in reach -/

/-- The calls from this position start with these results. -/
def ReturnsFrom (content : List UInt8) (p : ℕ) (first : List (List UInt8 × ℕ)) : Prop :=
  ∀ results, HrefCalls content p results → first <+: results

theorem occurrences_shift (p q : ℕ) (t : List UInt8) :
    occurrences (p + q) t = (occurrences q t).map fun r ↦ (r.1, p + r.2) := by
  induction t generalizing q with
  | nil => rfl
  | cons c t ih =>
      rw [occurrences, occurrences]
      cases linkAt? (c :: t) with
      | none => exact ih (q + 1)
      | some link =>
          rw [List.map_cons, ← ih]
          simp only [Nat.add_assoc]

theorem occurrences_eq_nil_iff : occurrences p t = [] ↔ occurrences 0 t = [] := by
  have hshift := occurrences_shift p 0 t
  rw [Nat.add_zero] at hshift
  rw [hshift, List.map_eq_nil_iff]

section

variable (hdrop : content.drop p = a ++ (text "href=" ++ x :: (link ++ 34 :: b)))
include hdrop

theorem drop_closingQuote : content.drop (p + (a.length + 6 + link.length)) = 34 :: b := by
  have hfront := length_href a x link
  have hsplit : a ++ (text "href=" ++ x :: (link ++ 34 :: b)) =
      (a ++ (text "href=" ++ x :: link)) ++ 34 :: b := by
    simp only [List.append_assoc, List.cons_append]
  rw [← List.drop_drop, hdrop, hsplit, List.drop_left' hfront]

variable (hnul : 0 ∉ content.drop p) (hno : ¬text "href=" <:+: a) (hquote : 34 ∉ link)
  (hchunk : a.length + 6 + link.length < maxUrlSize)
include hnul hno hquote hchunk

/-- What is in reach is what the next call returns, whatever its buffer holds. -/
theorem run_findHref_link {tr : Trace} {s : OpenFile} {out : Except Fault HrefResult}
    (hfuel : content.length < fuel)
    (h : scanning.Run ⟨content, p⟩ (findHref fuel file) tr s out) :
    out = .ok (.success link) ∧ s.position = p + (a.length + 6 + link.length) := by
  have hfront := length_href a x link
  have hwhole : (OpenFile.mk content p).read maxUrlSize ++ (content.drop p).drop maxUrlSize =
      (a ++ (text "href=" ++ x :: link)) ++ 34 :: b := by
    rw [OpenFile.read, List.take_append_drop, hdrop]
    simp only [List.append_assoc, List.cons_append]
  have hin : (a ++ (text "href=" ++ x :: link)).length <
      ((OpenFile.mk content p).read maxUrlSize).length := by
    have hlength := congrArg List.length hdrop
    rw [OpenFile.read, List.length_take, hdrop, hfront]
    rw [length_href, List.length_append, List.length_cons]
    omega
  obtain ⟨back, hback⟩ := chunk_split hwhole hin
  rw [hdrop] at hnul
  simp only [List.mem_append, List.mem_cons, not_or] at hnul
  obtain ⟨ha, -, -, hlink, -⟩ := hnul
  have hkeeps : scanning.Keeps (findHref fuel file) (fun s out ↦ out = .ok (.success link) ∧
      s.position = p + (a.length + 6 + link.length)) ⟨content, p⟩ := by
    refine keeps_findHref fun stale ↦ ?_
    have hbuffer : overlay ((OpenFile.mk content p).read maxUrlSize) stale =
        a ++ (text "href=" ++ x :: (link ++ 34 ::
          (back ++ stale.drop ((OpenFile.mk content p).read maxUrlSize).length))) := by
      rw [overlay, hback]
      simp only [List.append_assoc, List.cons_append]
    have hne : (OpenFile.mk content p).read maxUrlSize ≠ [] := List.ne_nil_of_length_pos (by omega)
    cases fuel with
    | zero => omega
    | succ fuel =>
        exact keeps_findHrefLoop_link hne ha hno hbuffer hlink hquote (by omega) ⟨rfl, rfl⟩
  exact h.keeps hkeeps

/-- The calls behind what is in reach are those behind a call that returns it. -/
theorem HrefCalls.afterLink (hs : HrefCalls content (p + (a.length + 6 + link.length)) results) :
    HrefCalls content p ((link, p + (a.length + 6 + link.length)) :: results) := by
  have hfuel : content.length < content.length + 1 := Nat.lt_succ_self _
  obtain ⟨tr, s, out, hrun⟩ :=
    exists_run scanning_total (findHref (content.length + 1) 0) ⟨content, p⟩
  obtain ⟨rfl, hposition⟩ := run_findHref_link hdrop hnul hno hquote hchunk hfuel hrun
  rw [← hposition] at hs ⊢
  exact .success hfuel hrun hs

/-- All calls return what is in reach and go on behind it. -/
theorem HrefCalls.link_first (h : HrefCalls content p results) :
    ∃ rest, results = (link, p + (a.length + 6 + link.length)) :: rest ∧
      HrefCalls content (p + (a.length + 6 + link.length)) rest := by
  have hrun {fuel : ℕ} {file : FileHandle} {tr : Trace} {s : OpenFile}
      {out : Except Fault HrefResult} (hfuel : content.length < fuel)
      (hrun : scanning.Run ⟨content, p⟩ (findHref fuel file) tr s out) :=
    run_findHref_link hdrop hnul hno hquote hchunk hfuel hrun
  cases h with
  | finished hfuel h => cases (hrun hfuel h).1
  | fault hfuel h => cases (hrun hfuel h).1
  | fail hfuel h => cases (hrun hfuel h).1
  | success hfuel h hs =>
      obtain ⟨hout, hposition⟩ := hrun hfuel h
      cases hout
      rw [hposition] at hs ⊢
      exact ⟨_, rfl, hs⟩

end

/-- From a position from which all links are in reach, the calls start with the same results, and
the links are among them. -/
theorem InReach.returnsFrom (h : InReach t) (hnul : 0 ∉ t) (hdrop : content.drop p = t) :
    ∃ first, (occurrences p t).Sublist first ∧ ReturnsFrom content p first := by
  induction h generalizing p with
  | none hnone =>
      have hlinks := (occurrences_eq_nil_iff (p := p)).mpr hnone
      exact ⟨[], hlinks ▸ List.nil_sublist _, fun _ _ ↦ List.nil_prefix⟩
  | @next t a link b x ht hno hquote hchunk hnest h ih =>
      subst ht
      have hlater : 0 ∉ 34 :: b :=
        fun hmem ↦ hnul (by simp [List.mem_of_ne_of_mem (by decide) hmem])
      obtain ⟨first, hlinks, hreturns⟩ := ih hlater (drop_closingQuote hdrop)
      refine ⟨(link, p + (a.length + 6 + link.length)) :: first, ?_, fun results hcalls ↦ ?_⟩
      · have hplace : p + (a.length + 1) + (5 + link.length) =
            p + (a.length + 6 + link.length) := by omega
        rw [occurrences_first hno hquote, occurrences_next hquote hnest, hplace]
        split
        · exact hlinks.cons_cons _
        · exact hlinks.cons _
      · obtain ⟨rest, rfl, hs⟩ :=
          hcalls.link_first hdrop (hdrop ▸ hnul) hno hquote hchunk
        exact List.cons_prefix_cons.mpr ⟨rfl, hreturns rest hs⟩

/-- If all calls return the same first result, it is in reach. -/
theorem ReturnsFrom.exists_href (h : ReturnsFrom content p (r :: first))
    (hne : content.drop p ≠ []) (hnul : 0 ∉ content.drop p) :
    ∃ a x link b, content.drop p = a ++ (text "href=" ++ x :: (link ++ 34 :: b)) ∧
      ¬text "href=" <:+: a ∧ 34 ∉ link ∧ a.length + 6 + link.length < maxUrlSize := by
  have hread : (OpenFile.mk content p).read maxUrlSize ≠ [] := take_ne_nil hne
  have hoverlay : overlay ((OpenFile.mk content p).read maxUrlSize) [] =
      (content.drop p).take maxUrlSize := by
    rw [overlay, List.drop_nil, List.append_nil, OpenFile.read]
  have hlength : ((content.drop p).take maxUrlSize).length ≤ maxUrlSize := List.length_take_le _ _
  have hnul' : 0 ∉ (content.drop p).take maxUrlSize := fun hmem ↦ hnul (List.mem_of_mem_take hmem)
  cases searchEnds hlength with
  | noLink hknown =>
      rw [hknown] at hnul'
      simp at hnul'
  | unclosed hknown =>
      rw [hknown] at hnul'
      simp at hnul'
  | @link a b link x hknown ha hno _ hquote =>
      refine ⟨a, x, link, b ++ (content.drop p).drop maxUrlSize, ?_, hno, hquote, ?_⟩
      · conv_lhs => rw [← List.take_append_drop maxUrlSize (content.drop p), hknown]
        simp only [List.append_assoc, List.cons_append]
      · rw [hknown, length_href, List.length_append, List.length_cons] at hlength
        omega
  | @dangling known' a l x hknown hshort ha hno hnul hquote hl =>
      -- The result would have any byte at its end.
      have hresult (y : UInt8) (hy₀ : y ≠ 0) (hy₁ : y ≠ 34) : r.1 = l ++ [y] := by
        rw [← hoverlay] at hknown hlength
        obtain ⟨old, hold, hkeeps⟩ :=
          exists_dangling hread hknown hlength hshort ha hno hnul hquote hl hy₀ hy₁
        obtain ⟨tr, s, out, hrun, -, rfl⟩ :=
          exists_run_findHref hold (hkeeps (content.length + 1) 0 (Nat.succ_pos _))
        obtain ⟨results, hs⟩ := exists_hrefCalls content s.position
        have hfirst := h _ (.success (Nat.lt_succ_self _) hrun hs)
        rw [(List.cons_prefix_cons.mp hfirst).1]
      have htwo := (hresult 1 (by decide) (by decide)).symm.trans
        (hresult 2 (by decide) (by decide))
      simp at htwo

/-- If the calls start with results among which are all links, the links are in reach. -/
theorem ReturnsFrom.inReach (h : ReturnsFrom content p first)
    (hlinks : occurrences p (content.drop p) ⊆ first) (hnul : 0 ∉ content) :
    InReach (content.drop p) := by
  induction hn : (content.drop p).length using Nat.strong_induction_on generalizing p first with
  | h n ih =>
      by_cases hnone : occurrences p (content.drop p) = []
      · exact .none (occurrences_eq_nil_iff.mp hnone)
      obtain ⟨o, _, hsplit⟩ := List.exists_cons_of_ne_nil hnone
      obtain ⟨r, first, rfl⟩ := List.exists_cons_of_ne_nil
        (List.ne_nil_of_mem (hlinks (hsplit ▸ List.mem_cons_self)))
      have hne : content.drop p ≠ [] := by
        intro hnil
        rw [hnil] at hnone
        exact hnone rfl
      have hnul' : 0 ∉ content.drop p := fun hmem ↦ hnul (List.mem_of_mem_drop hmem)
      obtain ⟨a, x, link, b, hdrop, hno, hquote, hchunk⟩ := h.exists_href hne hnul'
      have hdrop' := drop_closingQuote hdrop
      -- Behind its closing quote the calls start with the results that are left.
      have hcons (results : List (List UInt8 × ℕ))
          (hs : HrefCalls content (p + (a.length + 6 + link.length)) results) :
          r = (link, p + (a.length + 6 + link.length)) ∧ first <+: results :=
        List.cons_prefix_cons.mp (h _ (hs.afterLink hdrop hnul' hno hquote hchunk))
      obtain ⟨results, hs⟩ := exists_hrefCalls content (p + (a.length + 6 + link.length))
      obtain ⟨rfl, hstarts⟩ := hcons results hs
      have hlater (o : List UInt8 × ℕ)
          (ho : o ∈ occurrences (p + (a.length + 1)) (text "ref=" ++ x :: (link ++ 34 :: b)))
          (hplace : p + (a.length + 6 + link.length) < o.2) : o ∈ first := by
        have hmem : o ∈ occurrences p (content.drop p) := by
          rw [hdrop, occurrences_first hno hquote]
          exact List.mem_append_right _ ho
        refine List.mem_of_ne_of_mem ?_ (hlinks hmem)
        rintro rfl
        exact Nat.lt_irrefl _ hplace
      have hnest : ¬(text "href=" <:+ x :: link ∧ 34 ∈ b) := by
        rintro ⟨hsuffix, hb⟩
        obtain ⟨link', hnested⟩ := occurrences_nested (p := p + (a.length + 1)) hsuffix hb
        have hmem := hlater _ hnested (by simp only; omega)
        have hends := hs.increasing.1 _ (hstarts.subset hmem)
        simp only at hends
        omega
      refine .next hdrop hno hquote hchunk hnest ?_
      rw [← hdrop']
      refine ih _ ?_ (fun results hs ↦ (hcons results hs).2) ?_ rfl
      · rw [hdrop', ← hn, hdrop, length_href, List.length_append, List.length_cons]
        omega
      · rintro ⟨link', j⟩ ho
        have hplace : p + (a.length + 6 + link.length) =
            p + (a.length + 1) + (5 + link.length) := by omega
        obtain ⟨a', b', -, -, hends⟩ := mem_occurrences ho
        rw [hdrop', hplace, ← occurrences_next hquote hnest] at ho
        exact hlater _ ho (by simp only; omega)

/-- If the calls return all links, the results that are links of the file are its links. -/
theorem ReturnsAll.filter_eq (h : ReturnsAll content) (hcalls : HrefCalls content 0 results) :
    results.filter (· ∈ occurrences 0 content) = occurrences 0 content := by
  obtain ⟨first, hlinks, hreturns⟩ := h
  obtain ⟨more, rfl, hmore⟩ := hreturns results hcalls
  have hnone : more.filter (· ∈ occurrences 0 content) = [] :=
    List.filter_eq_nil_iff.mpr fun r hr ↦ by simpa using hmore r hr
  rw [List.filter_append, hlinks, hnone, List.append_nil]

theorem ReturnsAll.inReach (h : ReturnsAll content) (hnul : 0 ∉ content) : InReach content := by
  obtain ⟨first, hlinks, hcalls⟩ := h
  have hreturns : ReturnsFrom content 0 first := by
    intro results hresults
    obtain ⟨more, rfl, -⟩ := hcalls results hresults
    exact List.prefix_append _ _
  refine hreturns.inReach (fun o ho ↦ ?_) hnul
  rw [List.drop_zero, ← hlinks] at ho
  exact (List.mem_filter.mp ho).1

theorem filter_mem_of_sublist {links : List (List UInt8 × ℕ)} (h : links.Sublist first)
    (hends : first.Pairwise fun r r' ↦ r.2 < r'.2) : first.filter (· ∈ links) = links := by
  induction h with
  | slnil => rfl
  | @cons links first r h ih =>
      obtain ⟨hfirst, hends⟩ := List.pairwise_cons.mp hends
      have hnot : r ∉ links := fun hmem ↦ Nat.lt_irrefl _ (hfirst r (h.subset hmem))
      rw [List.filter_cons_of_neg (by simpa using hnot), ih hends]
  | @cons_cons links first r h ih =>
      obtain ⟨hfirst, hends⟩ := List.pairwise_cons.mp hends
      have hlater : first.filter (· ∈ r :: links) = first.filter (· ∈ links) := by
        refine List.filter_congr fun r' hr' ↦ ?_
        have hne : r' ≠ r := fun heq ↦ Nat.lt_irrefl _ (heq ▸ hfirst r' hr')
        simp [hne]
      rw [List.filter_cons_of_pos (by simp), hlater, ih hends]

/-- Calling `find_href` to the end of the file returns every link in order and once, and up to
the last one the same results whatever the buffer holds, if and only if all links are in
reach. -/
theorem returnsAll_iff (hnul : 0 ∉ content) : ReturnsAll content ↔ InReach content := by
  refine ⟨fun h ↦ h.inReach hnul, fun h ↦ ?_⟩
  obtain ⟨first, hlinks, hreturns⟩ := h.returnsFrom hnul (List.drop_zero (l := content))
  refine ⟨first, ?_, fun results hcalls ↦ ?_⟩
  · obtain ⟨results, hcalls⟩ := exists_hrefCalls content 0
    exact filter_mem_of_sublist hlinks
      (hcalls.increasing.2.sublist (hreturns results hcalls).sublist)
  · obtain ⟨more, rfl⟩ := hreturns results hcalls
    refine ⟨more, rfl, fun r hr hmem ↦ ?_⟩
    have hlater := (List.pairwise_append.mp hcalls.increasing.2).2.2 r (hlinks.subset hmem) r hr
    exact Nat.lt_irrefl _ hlater

theorem returnsAll_iff_link :
    ReturnsAll (text "<a href=\"/x\">") ↔ InReach (text "<a href=\"/x\">") :=
  returnsAll_iff (by decide)

/-- A page with a link behind a reference in other quotes. -/
def quotesPage : List UInt8 := text "<a href='x'><a href=\"y\">"

/-- The quote that opens the link closes what the `href=` in front of it has opened. -/
theorem quotesPage_missed : ¬ReturnsAll quotesPage ∧
    ∃ results, HrefCalls quotesPage 0 results ∧ ∃ r ∈ occurrences 0 quotesPage, r ∉ results := by
  obtain ⟨results, hcalls⟩ := exists_hrefCalls quotesPage 0
  have hdrop : quotesPage.drop 0 =
      text "<a " ++ (text "href=" ++ 39 :: (text "x'><a href=" ++ 34 :: text "y\">")) := rfl
  have hno : ¬text "href=" <:+: text "<a " := by decide +kernel
  have hlink : (text "y", 22) ∈ occurrences 0 quotesPage := by decide +kernel
  have hmissed : (text "y", 22) ∉ results := by
    obtain ⟨rest, rfl, hs⟩ := hcalls.link_first hdrop (by decide) hno (by decide) (by decide)
    have hplace : (text "<a ").length + 6 + (text "x'><a href=").length = 20 := rfl
    rw [hplace] at hs ⊢
    intro hmem
    rcases List.mem_cons.mp hmem with heq | hmem
    · cases (Prod.mk.inj heq).2
    · have hends := hs.increasing.1 _ hmem
      simp only at hends
      omega
  refine ⟨fun h ↦ hmissed ?_, results, hcalls, _, hlink, hmissed⟩
  rw [← h.filter_eq hcalls] at hlink
  exact (List.mem_filter.mp hlink).1

end HttpProxy
