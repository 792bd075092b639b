import HttpProxy.FileLoops
import HttpProxy.PrefetchCalls

/-!
# Searching a file for links

The search of `find_href` as a function of the text in its buffer, and its reads as steps along
the file.  The buffer is a chunk of the file over what it held before, and only its first bytes
are known.
-/

namespace HttpProxy

open CString Interaction Protocol

variable {buffer a b c link known rest t u : List UInt8} {x : UInt8} {p fuel : ℕ}
  {file : FileHandle} {s : OpenFile} {Q : OpenFile → Except Fault HrefResult → Prop}

/-! ## Searching one buffer -/

/-- With `href=` found, what is decided by the search for the closing quote. -/
def linkFrom (buffer : List UInt8) (start : ℕ) : ScanResult :=
  match strchr buffer start 34 with
  | some closingQuote => .link start closingQuote
  | none => .unclosed

theorem matchesHref_iff : matchesCommand t "href=" = true ↔ text "href=" <+: t := strncmpEq_iff

/-- An `href=` that starts in front of another one ends in front of it. -/
theorem href_ends_before (h : text "href=" <+: a ++ text "href=" ++ b) (ha : a ≠ []) :
    text "href=" <+: a := by
  obtain ⟨d, a, rfl⟩ := List.exists_cons_of_ne_nil ha
  have hsplit : text "href=" = 104 :: text "ref=" := by decide
  rw [hsplit] at h ⊢
  simp only [List.cons_append, List.append_assoc, List.cons_prefix_cons] at h ⊢
  exact ⟨h.1, (prefix_append_cons_iff (by decide)).mp h.2⟩

theorem exists_first_href (h : text "href=" <:+: t) :
    ∃ a b, t = a ++ text "href=" ++ b ∧ ¬text "href=" <:+: a := by
  obtain ⟨a, b, rfl⟩ := h
  induction hn : a.length using Nat.strong_induction_on generalizing a b with
  | h n ih =>
      by_cases hno : text "href=" <:+: a
      · obtain ⟨a', b', rfl⟩ := hno
        have hlt : a'.length < n := by
          have hpos : 0 < (text "href=").length := by decide
          simp only [List.length_append] at hn
          omega
        obtain ⟨a₁, b₁, hsplit, hfirst⟩ := ih _ hlt a' (b' ++ text "href=" ++ b) rfl
        refine ⟨a₁, b₁, ?_, hfirst⟩
        rw [← hsplit]
        simp only [List.append_assoc]
      · exact ⟨a, b, rfl, hno⟩

theorem scanHref_none (hs : cstr buffer p = u) (hno : ¬text "href=" <:+: u)
    (hfuel : u.length < fuel) : scanHref fuel buffer (strchr buffer p 104) = .ok .noLink := by
  induction fuel generalizing p u with
  | zero => omega
  | succ fuel ih =>
      by_cases hmem : 104 ∈ u
      · obtain ⟨v, w, rfl, hv⟩ := List.eq_append_cons_of_mem hmem
        have hhere : cstr buffer (p + v.length) = 104 :: w := cstr_add_of_append hs
        have hmatch : ¬matchesCommand (104 :: w) "href=" = true := fun h ↦
          hno (List.infix_append_of_infix_right (matchesHref_iff.mp h).isInfix)
        have hw : ¬text "href=" <:+: w := fun h ↦
          hno (List.infix_append_of_infix_right (h.trans (List.suffix_cons _ _).isInfix))
        rw [strchr_of_append_cons (by decide) hs hv, scanHref, hhere, if_neg hmatch]
        apply ih (cstr_after hs) hw
        simp only [List.length_append, List.length_cons] at hfuel
        omega
      · rw [strchr_eq_none (by decide) (by rwa [hs])]
        rfl

/-- The search stops at the first `href=`. -/
theorem scanHref_some (hs : cstr buffer p = a ++ text "href=" ++ b)
    (hno : ¬text "href=" <:+: a) (hfuel : a.length < fuel) :
    scanHref fuel buffer (strchr buffer p 104) = .ok (linkFrom buffer (p + a.length + 6)) := by
  induction fuel generalizing p a with
  | zero => omega
  | succ fuel ih =>
      have hhref : text "href=" = 104 :: text "ref=" := by decide
      by_cases hmem : 104 ∈ a
      · obtain ⟨v, w, rfl, hv⟩ := List.eq_append_cons_of_mem hmem
        have hs' : cstr buffer p = v ++ 104 :: (w ++ text "href=" ++ b) := by
          rw [hs]
          simp
        have hmatch : ¬matchesCommand (104 :: (w ++ text "href=" ++ b)) "href=" = true := by
          intro h
          have hpre := href_ends_before (a := 104 :: w) (by simpa using matchesHref_iff.mp h)
            (List.cons_ne_nil _ _)
          exact hno (List.infix_append_of_infix_right hpre.isInfix)
        have hw : ¬text "href=" <:+: w := fun h ↦
          hno (List.infix_append_of_infix_right (h.trans (List.suffix_cons _ _).isInfix))
        simp only [List.length_append, List.length_cons] at hfuel
        rw [strchr_of_append_cons (by decide) hs' hv, scanHref, cstr_add_of_append hs',
          if_neg hmatch, ih (cstr_after hs') hw (by omega)]
        congr 2
        simp only [List.length_append, List.length_cons]
        omega
      · have hs' : cstr buffer p = a ++ 104 :: (text "ref=" ++ b) := by
          rw [hs, hhref]
          simp
        have hmatch : matchesCommand (104 :: (text "ref=" ++ b)) "href=" = true := by
          rw [matchesHref_iff, hhref]
          simp
        rw [strchr_of_append_cons (by decide) hs' hmem, scanHref, cstr_add_of_append hs',
          if_pos hmatch]
        unfold linkFrom
        cases strchr buffer (p + a.length + 6) 34 <;> rfl

/-- The search of `find_href` through the whole buffer. -/
def searchBuffer (buffer : List UInt8) : Except Fault ScanResult :=
  scanHref (buffer.length + 1) buffer (strchr buffer 0 104)

theorem searchBuffer_noLink (ha : 0 ∉ a) (hno : ¬text "href=" <:+: a) :
    searchBuffer (a ++ 0 :: b) = .ok .noLink := by
  have hfuel : a.length < (a ++ 0 :: b).length + 1 := by
    rw [List.length_append]
    omega
  exact scanHref_none (cstr_append_nul ha b) hno hfuel

theorem searchBuffer_href (ha : 0 ∉ a) (hno : ¬text "href=" <:+: a) :
    searchBuffer (a ++ (text "href=" ++ b)) =
      .ok (linkFrom (a ++ (text "href=" ++ b)) (a.length + 6)) := by
  have hnul : 0 ∉ a ++ text "href=" := by
    rw [List.mem_append, not_or]
    exact ⟨ha, by decide⟩
  have hs : cstr (a ++ (text "href=" ++ b)) 0 = a ++ text "href=" ++ cstr b 0 := by
    rw [← List.append_assoc, cstr_append hnul]
  have hfuel : a.length < (a ++ (text "href=" ++ b)).length + 1 := by
    rw [List.length_append]
    omega
  have hsome := scanHref_some hs hno hfuel
  rwa [Nat.zero_add] at hsome

/-- What stands behind the byte after `href=` decides how the search goes on. -/
theorem cstr_behind_href (a : List UInt8) (x : UInt8) (b : List UInt8) :
    cstr (a ++ (text "href=" ++ x :: b)) (a.length + 6) = cstr b 0 := by
  have hlength : (a ++ text "href=" ++ [x]).length = a.length + 6 := by
    simp only [List.length_append]
    rfl
  have h := cstr_append_right (a ++ text "href=" ++ [x]) b 0
  rw [hlength] at h
  simpa using h

theorem linkFrom_unclosed (hnul : 0 ∉ c) (hquote : 34 ∉ c) :
    linkFrom (a ++ (text "href=" ++ x :: (c ++ 0 :: b))) (a.length + 6) = .unclosed := by
  have hs : cstr (a ++ (text "href=" ++ x :: (c ++ 0 :: b))) (a.length + 6) = c := by
    rw [cstr_behind_href, cstr_append_nul hnul]
  rw [linkFrom, strchr_eq_none (by decide) (by rwa [hs])]

theorem linkFrom_link (hnul : 0 ∉ link) (hquote : 34 ∉ link) :
    linkFrom (a ++ (text "href=" ++ x :: (link ++ 34 :: b))) (a.length + 6) =
      .link (a.length + 6) (a.length + 6 + link.length) := by
  have hs : cstr (a ++ (text "href=" ++ x :: (link ++ 34 :: b))) (a.length + 6) =
      link ++ 34 :: cstr b 0 := by
    rw [cstr_behind_href, cstr_append hnul, cstr_cons, if_neg (by decide)]
  rw [linkFrom, strchr_of_append_cons (by decide) hs hquote]

/-! ## Reading on -/

/-- A file that is only read from, by one handle.  Everything else is left open: above all, what
the local buffer of a call holds at first. -/
def scanning : Protocol Resp OpenFile where
  requires _ _ := True
  answers s op answer :=
    match op, answer with
    | .fread _ size, answer => answer.val = s.read size
    | _, _ => True
  next s op answer :=
    match op, answer with
    | .fread _ _, answer => { s with position := s.position + answer.val.length }
    | .fseek _ whence offset, _ => s.seek whence offset
    | _, _ => s

theorem scanning_total (s : OpenFile) (op : Op) : ∃ r, scanning.answers s op r := by
  cases op with
  | fread file size => exact ⟨⟨s.read size, List.length_take_le _ _⟩, rfl⟩
  | _ =>
      obtain ⟨r, -⟩ := anything_total () _
      exact ⟨r, trivial⟩

/-- A call of `find_href` may find any bytes in its local buffer. -/
theorem exists_run_findHref {stale : List UInt8}
    (hstale : stale.length = jobRequestBufferSize + 1)
    (h : scanning.Keeps (findHrefLoop fuel file stale) Q s) :
    ∃ tr s' out, scanning.Run s (findHref fuel file) tr s' out ∧ Q s' out := by
  obtain ⟨tr, s', out, hrun⟩ := exists_run scanning_total (findHrefLoop fuel file stale) s
  exact ⟨⟨.indeterminate _, ⟨stale, hstale⟩⟩ :: tr, s', out, .call trivial hrun, hrun.keeps h⟩

theorem keeps_findHref
    (h : ∀ stale, scanning.Keeps (findHrefLoop fuel file stale) Q s) :
    scanning.Keeps (findHref fuel file) Q s :=
  ⟨trivial, fun stale _ ↦ h stale.val⟩

def overlay (chunk known : List UInt8) : List UInt8 := chunk ++ known.drop chunk.length

/-- The file after the read of a chunk. -/
def OpenFile.advance (s : OpenFile) : OpenFile :=
  { s with position := s.position + (s.read maxUrlSize).length }

@[simp] theorem OpenFile.advance_content (s : OpenFile) : s.advance.content = s.content := rfl

/-- What is left to keep once the buffer has been searched. -/
def KeepsAfter (fuel : ℕ) (file : FileHandle) (buffer : List UInt8)
    (Q : OpenFile → Except Fault HrefResult → Prop) (s : OpenFile) : ScanResult → Prop
  | .noLink => scanning.Keeps (findHrefLoop fuel file buffer) Q s.advance
  | .unclosed => Q s.advance (.ok .fail)
  | .link start closingQuote =>
      if maxUrlSize < closingQuote - start then Q s.advance (.error .outOfBounds)
      else Q { s with position := s.position + closingQuote }
        (.ok (.success ((buffer.drop start).take (closingQuote - start))))

theorem keeps_findHrefLoop_finished (h : s.read maxUrlSize = []) (hQ : Q s (.ok .finished)) :
    scanning.Keeps (findHrefLoop (fuel + 1) file buffer) Q s := by
  simp only [findHrefLoop, fread_bind, keeps_call]
  refine ⟨trivial, fun bytes hbytes ↦ ?_⟩
  have hnil : bytes.val = [] := Eq.trans hbytes h
  rw [if_pos hnil]
  simpa [scanning, hnil] using hQ

theorem keeps_findHrefLoop_read (result : ScanResult) (hne : s.read maxUrlSize ≠ [])
    (hsearch : searchBuffer (overlay (s.read maxUrlSize) buffer) = .ok result)
    (h : KeepsAfter fuel file (overlay (s.read maxUrlSize) buffer) Q s result) :
    scanning.Keeps (findHrefLoop (fuel + 1) file buffer) Q s := by
  simp only [findHrefLoop, fread_bind, keeps_call]
  refine ⟨trivial, fun bytes hbytes ↦ ?_⟩
  have hbytes : bytes.val = s.read maxUrlSize := hbytes
  have hnext : scanning.next s (.fread file maxUrlSize) bytes = s.advance := by
    simp only [scanning, OpenFile.advance, hbytes]
  unfold searchBuffer overlay at hsearch
  unfold overlay at h
  rw [hnext, hbytes, if_neg hne, hsearch, Prog.lift_ok, Prog.ret_bind]
  cases result with
  | noLink => exact h
  | unclosed => exact h
  | link start closingQuote =>
      simp only [KeepsAfter] at h ⊢
      split
      next hlong =>
        rw [if_pos hlong] at h
        exact h
      next hshort =>
        rw [if_neg hshort] at h
        simp only [fseek_bind, keeps_call, keeps_ret]
        refine ⟨trivial, fun _ _ ↦ ?_⟩
        have hposition : (((s.advance.position : ℤ) +
            -(((s.read maxUrlSize).length : ℤ) - closingQuote)).toNat) =
              s.position + closingQuote := by
          simp only [OpenFile.advance]
          omega
        simp only [scanning, OpenFile.seek, hposition]
        exact h

section

variable (hne : s.read maxUrlSize ≠ []) (ha : 0 ∉ a) (hno : ¬text "href=" <:+: a)
include hne ha hno

theorem keeps_findHrefLoop_noLink (hbuffer : overlay (s.read maxUrlSize) buffer = a ++ 0 :: b)
    (h : scanning.Keeps (findHrefLoop fuel file (overlay (s.read maxUrlSize) buffer)) Q
      s.advance) : scanning.Keeps (findHrefLoop (fuel + 1) file buffer) Q s := by
  refine keeps_findHrefLoop_read .noLink hne ?_ h
  rw [hbuffer, searchBuffer_noLink ha hno]

theorem keeps_findHrefLoop_unclosed
    (hbuffer : overlay (s.read maxUrlSize) buffer = a ++ (text "href=" ++ x :: (c ++ 0 :: b)))
    (hnul : 0 ∉ c) (hquote : 34 ∉ c) (hQ : Q s.advance (.ok .fail)) :
    scanning.Keeps (findHrefLoop (fuel + 1) file buffer) Q s := by
  refine keeps_findHrefLoop_read .unclosed hne ?_ hQ
  rw [hbuffer, searchBuffer_href ha hno, linkFrom_unclosed hnul hquote]

theorem keeps_findHrefLoop_link
    (hbuffer : overlay (s.read maxUrlSize) buffer =
      a ++ (text "href=" ++ x :: (link ++ 34 :: b)))
    (hnul : 0 ∉ link) (hquote : 34 ∉ link) (hlength : link.length ≤ maxUrlSize)
    (hQ : Q { s with position := s.position + (a.length + 6 + link.length) }
      (.ok (.success link))) :
    scanning.Keeps (findHrefLoop (fuel + 1) file buffer) Q s := by
  refine keeps_findHrefLoop_read (.link (a.length + 6) (a.length + 6 + link.length)) hne ?_ ?_
  · rw [hbuffer, searchBuffer_href ha hno, linkFrom_link hnul hquote]
  · have hbytes : ((a ++ (text "href=" ++ x :: (link ++ 34 :: b))).drop (a.length + 6)).take
        link.length = link := by
      have hfront : (a ++ text "href=" ++ [x]).length = a.length + 6 := by
        simp only [List.length_append]
        rfl
      have hsplit : a ++ (text "href=" ++ x :: (link ++ 34 :: b)) =
          (a ++ text "href=" ++ [x]) ++ (link ++ 34 :: b) := by simp
      rw [hsplit, List.drop_left' hfront, List.take_left]
    rw [KeepsAfter, Nat.add_sub_cancel_left, if_neg (Nat.not_lt.mpr hlength), hbuffer, hbytes]
    exact hQ

end

/-! ## How far a search goes -/

theorem scanHref_start {found : Option ℕ} {start closingQuote : ℕ}
    (h : scanHref fuel buffer found = .ok (.link start closingQuote)) : 6 ≤ start := by
  induction fuel generalizing found with
  | zero => cases h
  | succ fuel ih =>
      cases found with
      | none => cases h
      | some foundH =>
          simp only [scanHref] at h
          split at h
          · split at h
            next =>
              cases h
              exact Nat.le_add_left _ _
            next => cases h
          · exact ih h

/-- A search goes past what it finds, and past what it gives up on. -/
def GoesOn (s s' : OpenFile) (out : Except Fault HrefResult) : Prop :=
  s'.content = s.content ∧
    match out with
    | .ok .finished => True
    | .ok .fail => s.position < s'.position
    | .ok (.success link) => s.position + 6 + link.length ≤ s'.position
    | .error fault => fault = .outOfBounds

theorem keeps_findHrefLoop_goesOn (hfuel : s.content.length - s.position < fuel) :
    scanning.Keeps (findHrefLoop fuel file buffer) (GoesOn s) s := by
  induction fuel generalizing s buffer with
  | zero => omega
  | succ fuel ih =>
      by_cases hne : s.read maxUrlSize = []
      · exact keeps_findHrefLoop_finished hne ⟨rfl, trivial⟩
      · have hpos : 0 < (s.read maxUrlSize).length := List.length_pos_iff.mpr hne
        have hlength := length_read s maxUrlSize
        have hposition : s.advance.position = s.position + (s.read maxUrlSize).length := rfl
        obtain ⟨result, hsearch, -⟩ := scanHref_first (overlay (s.read maxUrlSize) buffer)
        apply keeps_findHrefLoop_read result hne hsearch
        cases result with
        | noLink =>
            refine (ih (s := s.advance) ?_).mono fun s' out h ↦ ⟨h.1, ?_⟩
            · rw [OpenFile.advance_content, hposition]
              simp only [OpenFile.left] at hlength
              omega
            · have hout := h.2
              split at hout
              · trivial
              · exact (Nat.lt_add_of_pos_right hpos).trans hout
              · rw [hposition] at hout
                omega
              · exact hout
        | unclosed => exact ⟨rfl, Nat.lt_add_of_pos_right hpos⟩
        | link start closingQuote =>
            have hstart := scanHref_start hsearch
            have hquote := (strchr_bounds (by decide) (scanHref_link hsearch)).1
            simp only [KeepsAfter]
            split
            · exact ⟨rfl, rfl⟩
            · have htake := List.length_take_le (closingQuote - start)
                ((overlay (s.read maxUrlSize) buffer).drop start)
              refine ⟨rfl, ?_⟩
              simp only
              omega

end HttpProxy
