import HttpProxy.LinkSearch

/-!
# Links that are no links

What `find_href` returns is a link of the file, whatever its buffer held before, if and only if
the bytes it has read settle the search: nothing terminates them, and the byte behind `href=` is
not compared.
-/

namespace HttpProxy

open CString Interaction Protocol

variable {content chunk known stale rest link front back l : List UInt8} {c x y : UInt8}
  {p j fuel : ℕ} {file : FileHandle} {s : OpenFile}

/-- The link stands in the file as `href="link"`, from `p` on and with its closing quote
at `j`. -/
def StandsAt (content : List UInt8) (p j : ℕ) (link : List UInt8) : Prop :=
  ∃ front back, content = front ++ (text "href=\"" ++ (link ++ 34 :: back)) ∧ p ≤ front.length ∧
    34 ∉ link ∧ j = front.length + 6 + link.length

/-- All calls from this position come to one result and leave the file at one place, and if the
result is a link, it stands in the file and ends there. -/
def NoPhantom (content : List UInt8) (p : ℕ) : Prop :=
  ∃ (result : HrefResult) (j : ℕ),
    (∀ fuel file tr s out, content.length < fuel →
      scanning.Run ⟨content, p⟩ (findHref fuel file) tr s out →
        out = .ok result ∧ s.position = j) ∧
    ∀ link, result = .success link → StandsAt content p j link ∧ link.length ≤ maxUrlSize

/-- The search through what is left of a file is settled by the bytes that are known of the
buffer: at each read a NUL stops it, or an `href="` with its closing quote, both just read, is
the first `href=`. -/
inductive Settled : List UInt8 → List UInt8 → Prop
  | finished (known : List UInt8) : Settled known []
  | noLink {known rest a b : List UInt8} (hne : rest ≠ [])
      (hknown : overlay (rest.take maxUrlSize) known = a ++ 0 :: b) (ha : 0 ∉ a)
      (hno : ¬text "href=" <:+: a)
      (h : Settled (overlay (rest.take maxUrlSize) known) (rest.drop maxUrlSize)) :
      Settled known rest
  | unclosed {known rest a b c : List UInt8} {x : UInt8} (hne : rest ≠ [])
      (hknown : overlay (rest.take maxUrlSize) known =
        a ++ (text "href=" ++ x :: (c ++ 0 :: b))) (ha : 0 ∉ a)
      (hno : ¬text "href=" <:+: a) (hnul : 0 ∉ c) (hquote : 34 ∉ c) : Settled known rest
  | link {known rest a b link : List UInt8}
      (hknown : overlay (rest.take maxUrlSize) known =
        a ++ (text "href=\"" ++ (link ++ 34 :: b))) (ha : 0 ∉ a)
      (hno : ¬text "href=" <:+: a) (hnul : 0 ∉ link) (hquote : 34 ∉ link)
      (hchunk : a.length + 6 + link.length < (rest.take maxUrlSize).length) : Settled known rest

/-! ## Chunks -/

theorem href_quote (t : List UInt8) : text "href=\"" ++ t = text "href=" ++ 34 :: t := rfl

theorem length_href (a : List UInt8) (x : UInt8) (b : List UInt8) :
    (a ++ (text "href=" ++ x :: b)).length = a.length + 6 + b.length := by
  have hhref : (text "href=").length = 5 := rfl
  simp only [List.length_append, List.length_cons, hhref]
  omega

theorem take_ne_nil (h : rest ≠ []) : rest.take maxUrlSize ≠ [] := by
  obtain ⟨c, rest, rfl⟩ := List.exists_cons_of_ne_nil h
  exact List.cons_ne_nil _ _

theorem exists_overlay (chunk known stale : List UInt8) :
    ∃ more, overlay chunk (known ++ stale) = overlay chunk known ++ more :=
  ⟨stale.drop (chunk.length - known.length), by
    rw [overlay, overlay, List.drop_append, List.append_assoc]⟩

theorem length_overlay (chunk known : List UInt8) :
    (overlay chunk known).length = chunk.length + (known.length - chunk.length) := by
  rw [overlay, List.length_append, List.length_drop]

theorem OpenFile.advance_left (s : OpenFile) :
    s.advance.content.drop s.advance.position =
      (s.content.drop s.position).drop maxUrlSize := by
  have hposition : s.advance.position = s.position + (s.read maxUrlSize).length := rfl
  rw [advance_content, hposition, ← List.drop_drop, OpenFile.read]
  rcases Nat.lt_or_ge (s.content.drop s.position).length maxUrlSize with hlt | hge
  · rw [List.take_of_length_le hlt.le, List.drop_length, List.drop_of_length_le hlt.le]
  · rw [List.length_take, Nat.min_eq_left hge]

/-- What lies in front of a byte of the chunk lies in the chunk. -/
theorem chunk_split {more : List UInt8} (h : chunk ++ more = front ++ c :: back)
    (hin : front.length < chunk.length) : ∃ back', chunk = front ++ c :: back' := by
  have hfront : front ++ [c] <+: chunk ++ more :=
    ⟨back, by rw [h, List.append_assoc, List.singleton_append]⟩
  have hlength : (front ++ [c]).length ≤ chunk.length := by
    rw [List.length_append, List.length_singleton]
    exact hin
  have hpre : front ++ [c] <+: chunk :=
    List.prefix_of_prefix_length_le hfront (List.prefix_append _ _) hlength
  obtain ⟨back', rfl⟩ := hpre
  exact ⟨back', by simp⟩

/-- What the known bytes have in front of a byte of the chunk, the file has as well. -/
theorem content_split (h : overlay (rest.take maxUrlSize) known = front ++ c :: back)
    (hin : front.length < (rest.take maxUrlSize).length) :
    ∃ back', rest = front ++ c :: back' := by
  rw [overlay] at h
  obtain ⟨back', hback⟩ := chunk_split h hin
  refine ⟨back' ++ rest.drop maxUrlSize, ?_⟩
  conv_lhs => rw [← List.take_append_drop maxUrlSize rest, hback]
  rw [List.append_assoc, List.cons_append]

theorem StandsAt.mono {p' : ℕ} (h : StandsAt content p' j link) (hp : p ≤ p') :
    StandsAt content p j link := by
  obtain ⟨front, back, hcontent, hfront, hrest⟩ := h
  exact ⟨front, back, hcontent, hp.trans hfront, hrest⟩

theorem standsAt_of_drop (h : content.drop p = front ++ (text "href=\"" ++ (link ++ 34 :: back)))
    (hquote : 34 ∉ link) : StandsAt content p (p + (front.length + 6 + link.length)) link := by
  have hp : (content.take p).length = p := by
    have hne : content.drop p ≠ [] := by
      rw [h]
      simp
    rw [List.length_take, Nat.min_eq_left]
    by_contra hlt
    exact hne (List.drop_of_length_le (by omega))
  refine ⟨content.take p ++ front, back, ?_, ?_, hquote, ?_⟩
  · rw [List.append_assoc, ← h, List.take_append_drop]
  · rw [List.length_append]
    omega
  · rw [List.length_append]
    omega

/-! ## A settled search -/

/-- A settled search does not depend on the bytes behind the known ones. -/
theorem Settled.keeps (h : Settled known rest) (s : OpenFile)
    (hs : s.content.drop s.position = rest) :
    ∃ (result : HrefResult) (j : ℕ),
      (∀ fuel file stale, rest.length < fuel →
        scanning.Keeps (findHrefLoop fuel file (known ++ stale))
          (fun s' out ↦ out = .ok result ∧ s'.position = j) s) ∧
      ∀ link, result = .success link →
        StandsAt s.content s.position j link ∧ link.length ≤ maxUrlSize := by
  induction h generalizing s with
  | finished known =>
      refine ⟨.finished, s.position, fun fuel file stale hfuel ↦ ?_, by rintro _ ⟨⟩⟩
      cases fuel with
      | zero => omega
      | succ fuel =>
          refine keeps_findHrefLoop_finished ?_ ⟨rfl, rfl⟩
          rw [OpenFile.read, hs, List.take_nil]
  | @noLink known rest a b hne hknown ha hno h ih =>
      have hread : s.read maxUrlSize = rest.take maxUrlSize := by rw [OpenFile.read, hs]
      obtain ⟨result, j, hkeeps, hresult⟩ := ih s.advance (by rw [s.advance_left, hs])
      refine ⟨result, j, fun fuel file stale hfuel ↦ ?_, fun link hlink ↦ ?_⟩
      · obtain ⟨more, hmore⟩ := exists_overlay (rest.take maxUrlSize) known stale
        have hbuffer : overlay (s.read maxUrlSize) (known ++ stale) = a ++ 0 :: (b ++ more) := by
          rw [hread, hmore, hknown, List.append_assoc, List.cons_append]
        have hpos := List.length_pos_iff.mpr hne
        cases fuel with
        | zero => omega
        | succ fuel =>
            apply keeps_findHrefLoop_noLink (hread ▸ take_ne_nil hne) ha hno hbuffer
            rw [hread, hmore]
            apply hkeeps _ _ _
            rw [List.length_drop, maxUrlSize]
            omega
      · obtain ⟨hstands, hlength⟩ := hresult link hlink
        exact ⟨hstands.mono (Nat.le_add_right _ _), hlength⟩
  | @unclosed known rest a b c x hne hknown ha hno hnul hquote =>
      have hread : s.read maxUrlSize = rest.take maxUrlSize := by rw [OpenFile.read, hs]
      refine ⟨.fail, s.advance.position, fun fuel file stale hfuel ↦ ?_, by rintro _ ⟨⟩⟩
      obtain ⟨more, hmore⟩ := exists_overlay (rest.take maxUrlSize) known stale
      have hbuffer : overlay (s.read maxUrlSize) (known ++ stale) =
          a ++ (text "href=" ++ x :: (c ++ 0 :: (b ++ more))) := by
        rw [hread, hmore, hknown]
        simp only [List.append_assoc, List.cons_append]
      cases fuel with
      | zero => omega
      | succ fuel =>
          exact keeps_findHrefLoop_unclosed (hread ▸ take_ne_nil hne) ha hno hbuffer hnul hquote
            ⟨rfl, rfl⟩
  | @link known rest a b link hknown ha hno hnul hquote hchunk =>
      have hread : s.read maxUrlSize = rest.take maxUrlSize := by rw [OpenFile.read, hs]
      have hne : rest.take maxUrlSize ≠ [] := List.ne_nil_of_length_pos (by omega)
      have hlength : link.length ≤ maxUrlSize := by
        have := List.length_take_le maxUrlSize rest
        omega
      refine ⟨.success link, s.position + (a.length + 6 + link.length),
        fun fuel file stale hfuel ↦ ?_, ?_⟩
      · obtain ⟨more, hmore⟩ := exists_overlay (rest.take maxUrlSize) known stale
        have hbuffer : overlay (s.read maxUrlSize) (known ++ stale) =
            a ++ (text "href=" ++ 34 :: (link ++ 34 :: (b ++ more))) := by
          rw [hread, hmore, hknown, href_quote]
          simp only [List.append_assoc, List.cons_append]
        cases fuel with
        | zero => omega
        | succ fuel =>
            exact keeps_findHrefLoop_link (hread ▸ hne) ha hno hbuffer hnul hquote hlength
              ⟨rfl, rfl⟩
      · rintro _ ⟨⟩
        refine ⟨?_, hlength⟩
        have hsplit : overlay (rest.take maxUrlSize) known =
            (a ++ (text "href=\"" ++ link)) ++ 34 :: b := by
          rw [hknown]
          simp only [List.append_assoc]
        have hfront : (a ++ (text "href=\"" ++ link)).length = a.length + 6 + link.length :=
          length_href a 34 link
        obtain ⟨back, hback⟩ := content_split hsplit (by rw [hfront]; exact hchunk)
        have hdrop : s.content.drop s.position =
            a ++ (text "href=\"" ++ (link ++ 34 :: back)) := by
          rw [hs, hback]
          simp only [List.append_assoc]
        exact standsAt_of_drop hdrop hquote

/-! ## A search that is not settled -/

theorem StandsAt.getElem?_last {y : UInt8} (h : StandsAt content p j (l ++ [y])) :
    content[j - 1]? = some y := by
  obtain ⟨front, back, rfl, -, -, rfl⟩ := h
  have hsplit : front ++ (text "href=\"" ++ (l ++ [y] ++ 34 :: back)) =
      (front ++ text "href=\"" ++ l) ++ y :: 34 :: back := by simp
  have hlength : (front ++ text "href=\"" ++ l).length =
      front.length + 6 + (l ++ [y]).length - 1 := by
    simp only [List.length_append, List.length_singleton]
    rfl
  rw [hsplit, ← hlength, List.getElem?_append_right le_rfl, Nat.sub_self]
  rfl

theorem StandsAt.getElem?_sixth (h : StandsAt content p j link) :
    content[j - link.length - 1]? = some 34 := by
  obtain ⟨front, back, rfl, -, -, rfl⟩ := h
  have hsplit : front ++ (text "href=\"" ++ (link ++ 34 :: back)) =
      (front ++ text "href=") ++ 34 :: (link ++ 34 :: back) := by
    rw [href_quote, List.append_assoc]
  have hlength : (front ++ text "href=").length =
      front.length + 6 + link.length - link.length - 1 := by
    rw [Nat.add_sub_cancel, List.length_append]
    rfl
  rw [hsplit, ← hlength, List.getElem?_append_right le_rfl, Nat.sub_self]
  rfl

theorem StandsAt.lt_length (h : StandsAt content p j link) : j < content.length := by
  obtain ⟨front, back, rfl, -, -, rfl⟩ := h
  rw [href_quote, length_href, List.length_append, List.length_cons]
  omega

/-- The result is a link that stands nowhere in the file. -/
def Phantom (content : List UInt8) (s : OpenFile) (out : Except Fault HrefResult) : Prop :=
  ∃ link, out = .ok (.success link) ∧ ∀ p, ¬StandsAt content p s.position link

/-- Old bytes that make up the buffer to the wanted ones behind the known ones. -/
theorem exists_stale {n : ℕ} (hlength : (overlay chunk known ++ stale).length = n) :
    ∃ old, (known ++ old).length = n ∧
      overlay chunk (known ++ old) = overlay chunk known ++ stale := by
  refine ⟨List.replicate (chunk.length - known.length) 0 ++ stale, ?_, ?_⟩
  · rw [List.length_append, length_overlay] at hlength
    simp only [List.length_append, List.length_replicate]
    omega
  · rw [overlay, overlay, List.drop_append, List.append_assoc]
    congr 2
    exact List.drop_left' (List.length_replicate ..)

/-- A search that runs into unknown bytes can be led by them to links with any byte at the
end. -/
theorem exists_dangling {known' a : List UInt8} (hne : s.read maxUrlSize ≠ [])
    (hknown : overlay (s.read maxUrlSize) known ++ known' = a ++ (text "href=" ++ x :: l))
    (hshort : (overlay (s.read maxUrlSize) known).length ≤ maxUrlSize)
    (hshort' : known'.length ≤ 6) (ha : 0 ∉ a) (hno : ¬text "href=" <:+: a) (hnul : 0 ∉ l)
    (hquote : 34 ∉ l) (hl : l.length < maxUrlSize) (hy₀ : y ≠ 0) (hy₁ : y ≠ 34) :
    ∃ old, (known ++ old).length = jobRequestBufferSize + 1 ∧
      ∀ fuel file, 0 < fuel →
        scanning.Keeps (findHrefLoop fuel file (known ++ old)) (fun s' out ↦
          s'.position = s.position + (a.length + 6 + (l ++ [y]).length) ∧
            out = .ok (.success (l ++ [y]))) s := by
  have hroom : (overlay (s.read maxUrlSize) known).length + known'.length + 2 ≤
      jobRequestBufferSize + 1 := by
    have hsize : maxUrlSize + 8 ≤ jobRequestBufferSize + 1 := by decide
    omega
  obtain ⟨n, hn⟩ := Nat.exists_eq_add_of_le hroom
  have hlength : (overlay (s.read maxUrlSize) known ++
      (known' ++ y :: 34 :: List.replicate n 0)).length = jobRequestBufferSize + 1 := by
    rw [hn]
    simp only [List.length_append, List.length_cons, List.length_replicate]
    omega
  obtain ⟨old, hold, hbuffer⟩ := exists_stale hlength
  refine ⟨old, hold, fun fuel file hfuel ↦ ?_⟩
  have hsplit : overlay (s.read maxUrlSize) (known ++ old) =
      a ++ (text "href=" ++ x :: ((l ++ [y]) ++ 34 :: List.replicate n 0)) := by
    rw [hbuffer, ← List.append_assoc, hknown]
    simp
  cases fuel with
  | zero => omega
  | succ fuel =>
      refine keeps_findHrefLoop_link hne ha hno hsplit ?_ ?_ ?_ ⟨rfl, rfl⟩
      · simp [hnul, Ne.symm hy₀]
      · simp [hquote, Ne.symm hy₁]
      · rw [List.length_append, List.length_singleton]
        exact hl

/-- One of these links stands nowhere. -/
theorem exists_phantom_of_dangling {known' a : List UInt8} (hne : s.read maxUrlSize ≠ [])
    (hknown : overlay (s.read maxUrlSize) known ++ known' = a ++ (text "href=" ++ x :: l))
    (hshort : (overlay (s.read maxUrlSize) known).length ≤ maxUrlSize)
    (hshort' : known'.length ≤ 6) (ha : 0 ∉ a) (hno : ¬text "href=" <:+: a) (hnul : 0 ∉ l)
    (hquote : 34 ∉ l) (hl : l.length < maxUrlSize) :
    ∃ old, (known ++ old).length = jobRequestBufferSize + 1 ∧
      ∀ fuel file, 0 < fuel →
        scanning.Keeps (findHrefLoop fuel file (known ++ old)) (Phantom s.content) s := by
  -- The last byte of the link is none that the file has there.
  obtain ⟨y, hy₀, hy₁, hy⟩ : ∃ y : UInt8, y ≠ 0 ∧ y ≠ 34 ∧
      s.content[s.position + (a.length + 6 + (l ++ [y]).length) - 1]? ≠ some y := by
    by_cases h : s.content[s.position + (a.length + 6 + (l ++ [1]).length) - 1]? = some 1
    · refine ⟨2, by decide, by decide, ?_⟩
      rw [List.length_append, List.length_singleton] at h ⊢
      rw [h]
      decide
    · exact ⟨1, by decide, by decide, h⟩
  obtain ⟨old, hold, hkeeps⟩ :=
    exists_dangling hne hknown hshort hshort' ha hno hnul hquote hl hy₀ hy₁
  refine ⟨old, hold, fun fuel file hfuel ↦ (hkeeps fuel file hfuel).mono ?_⟩
  rintro s' _ ⟨hposition, rfl⟩
  refine ⟨_, rfl, fun p hstands ↦ ?_⟩
  rw [hposition] at hstands
  exact hy hstands.getElem?_last

theorem length_read_le (h : known.length ≤ maxUrlSize) :
    (overlay (s.read maxUrlSize) known).length ≤ maxUrlSize := by
  have hread : (s.read maxUrlSize).length ≤ maxUrlSize := List.length_take_le _ _
  rw [length_overlay]
  omega

/-- A link in the known bytes is a phantom if the byte behind `href=` is no quote or its end is
not in the chunk. -/
theorem exists_phantom_of_link {a b : List UInt8} (hne : s.read maxUrlSize ≠ [])
    (hknown : overlay (s.read maxUrlSize) known = a ++ (text "href=" ++ x :: (link ++ 34 :: b)))
    (hshort : known.length ≤ maxUrlSize) (ha : 0 ∉ a) (hno : ¬text "href=" <:+: a)
    (hnul : 0 ∉ link) (hquote : 34 ∉ link)
    (hbad : x = 34 → (s.read maxUrlSize).length ≤ a.length + 6 + link.length) :
    ∃ old, (known ++ old).length = jobRequestBufferSize + 1 ∧
      ∀ fuel file, 0 < fuel →
        scanning.Keeps (findHrefLoop fuel file (known ++ old)) (Phantom s.content) s := by
  have hlength := length_read_le (s := s) hshort
  have hsize : maxUrlSize ≤ jobRequestBufferSize + 1 := by decide
  obtain ⟨n, hn⟩ := Nat.exists_eq_add_of_le (hlength.trans hsize)
  obtain ⟨old, hold, hbuffer⟩ : ∃ old, (known ++ old).length = jobRequestBufferSize + 1 ∧
      overlay (s.read maxUrlSize) (known ++ old) =
        overlay (s.read maxUrlSize) known ++ List.replicate n 0 :=
    exists_stale (by rw [hn, List.length_append, List.length_replicate])
  have hend : a.length + 6 + link.length < maxUrlSize := by
    rw [hknown, length_href, List.length_append, List.length_cons] at hlength
    omega
  refine ⟨old, hold, fun fuel file hfuel ↦ ?_⟩
  have hsplit : overlay (s.read maxUrlSize) (known ++ old) =
      a ++ (text "href=" ++ x :: (link ++ 34 :: (b ++ List.replicate n 0))) := by
    rw [hbuffer, hknown]
    simp only [List.append_assoc, List.cons_append]
  cases fuel with
  | zero => omega
  | succ fuel =>
      refine keeps_findHrefLoop_link hne ha hno hsplit hnul hquote (by omega)
        ⟨_, rfl, fun p h ↦ ?_⟩
      have hin := h.lt_length
      have hsixth := h.getElem?_sixth
      have hread : (s.read maxUrlSize).length = min maxUrlSize s.left := length_read s maxUrlSize
      have hchunk : a.length + 6 + link.length < (s.read maxUrlSize).length := by
        rw [hread, OpenFile.left]
        simp only at hin
        omega
      have hx : x ≠ 34 := fun hx ↦ absurd (hbad hx) (by omega)
      have hwhole : overlay (s.read maxUrlSize) known =
          (a ++ text "href=") ++ x :: (link ++ 34 :: b) := by
        rw [hknown, List.append_assoc]
      have hfront : (a ++ text "href=").length = a.length + 5 := by
        rw [List.length_append]
        rfl
      have hin' : (a ++ text "href=").length < (s.read maxUrlSize).length := by omega
      obtain ⟨back, hdrop⟩ := content_split hwhole hin'
      have hindex : s.position + (a.length + 6 + link.length) - link.length - 1 =
          s.position + (a ++ text "href=").length := by omega
      rw [hindex, ← List.getElem?_drop, hdrop, List.getElem?_append_right le_rfl, Nat.sub_self,
        List.getElem?_cons_zero, Option.some_inj] at hsixth
      exact hx hsixth

/-- The bytes after `href=` end at a NUL or at a quote, or not at all. -/
theorem split_at_stop (t : List UInt8) : (0 ∉ t ∧ 34 ∉ t) ∨
    ∃ l c back, t = l ++ c :: back ∧ 0 ∉ l ∧ 34 ∉ l ∧ (c = 0 ∨ c = 34) := by
  induction t with
  | nil => exact .inl ⟨List.not_mem_nil, List.not_mem_nil⟩
  | cons d t ih =>
      by_cases hd : d = 0 ∨ d = 34
      · exact .inr ⟨[], d, t, rfl, List.not_mem_nil, List.not_mem_nil, hd⟩
      · rw [not_or] at hd
        rcases ih with ⟨hnul, hquote⟩ | ⟨l, c, back, rfl, hnul, hquote, hc⟩
        · exact .inl ⟨by simp [hnul, Ne.symm hd.1], by simp [hquote, Ne.symm hd.2]⟩
        · exact .inr ⟨d :: l, c, back, rfl, by simp [hnul, Ne.symm hd.1],
            by simp [hquote, Ne.symm hd.2], hc⟩

/-- The first `href=` of the string in a buffer. -/
theorem exists_href_of_cstr {buffer : List UInt8} (h : text "href=" <:+: cstr buffer 0) :
    ∃ a b, buffer = a ++ (text "href=" ++ b) ∧ 0 ∉ a ∧ ¬text "href=" <:+: a := by
  obtain ⟨a, b, hfirst, hno⟩ := exists_first_href h
  have hnul : 0 ∉ cstr buffer 0 := fun hmem ↦ by simpa using List.mem_takeWhile_imp hmem
  have ha : 0 ∉ a := fun hmem ↦ hnul (by simp [hfirst, hmem])
  refine ⟨a, b ++ buffer.dropWhile (· ≠ 0), ?_, ha, hno⟩
  have hsplit : cstr buffer 0 ++ buffer.dropWhile (· ≠ 0) = buffer :=
    List.takeWhile_append_dropWhile
  rw [← List.append_assoc, ← List.append_assoc, ← hfirst, hsplit]

/-- How far the search through a buffer is decided by its known bytes. -/
inductive SearchEnds (known : List UInt8) : Prop
  | noLink {a b : List UInt8} (hknown : known = a ++ 0 :: b) (ha : 0 ∉ a)
      (hno : ¬text "href=" <:+: a)
  | unclosed {a b c : List UInt8} {x : UInt8}
      (hknown : known = a ++ (text "href=" ++ x :: (c ++ 0 :: b))) (ha : 0 ∉ a)
      (hno : ¬text "href=" <:+: a) (hnul : 0 ∉ c) (hquote : 34 ∉ c)
  | link {a b link : List UInt8} {x : UInt8}
      (hknown : known = a ++ (text "href=" ++ x :: (link ++ 34 :: b))) (ha : 0 ∉ a)
      (hno : ¬text "href=" <:+: a) (hnul : 0 ∉ link) (hquote : 34 ∉ link)
  | dangling {known' a l : List UInt8} {x : UInt8}
      (hknown : known ++ known' = a ++ (text "href=" ++ x :: l)) (hshort : known'.length ≤ 6)
      (ha : 0 ∉ a) (hno : ¬text "href=" <:+: a) (hnul : 0 ∉ l) (hquote : 34 ∉ l)
      (hl : l.length < maxUrlSize)

theorem searchEnds (hshort : known.length ≤ maxUrlSize) : SearchEnds known := by
  by_cases hhref : text "href=" <:+: cstr known 0
  · obtain ⟨a, b, rfl, ha, hno⟩ := exists_href_of_cstr hhref
    have hhref : (text "href=").length = 5 := rfl
    simp only [List.length_append, hhref] at hshort
    cases b with
    | nil =>
        have hdangling : a ++ (text "href=" ++ []) ++ [97] = a ++ (text "href=" ++ 97 :: []) := by
          simp
        exact .dangling hdangling (by decide) ha hno (by decide) (by decide) (by decide)
    | cons x b =>
        rcases split_at_stop b with ⟨hnul, hquote⟩ | ⟨l, c, back, rfl, hnul, hquote, hc⟩
        · rw [List.length_cons] at hshort
          exact .dangling (List.append_nil _) (by decide) ha hno hnul hquote (by omega)
        · rcases hc with rfl | rfl
          · exact .unclosed rfl ha hno hnul hquote
          · exact .link rfl ha hno hnul hquote
  · by_cases hnul : 0 ∈ known
    · obtain ⟨a, b, rfl, ha⟩ := List.eq_append_cons_of_mem hnul
      rw [cstr_append_nul ha] at hhref
      exact .noLink rfl ha hhref
    · rw [cstr_eq_self hnul] at hhref
      have hdangling : known ++ text "href=\"" = known ++ (text "href=" ++ 34 :: []) := rfl
      exact .dangling hdangling (by decide) hnul hhref List.not_mem_nil List.not_mem_nil
        (by decide)

/-- If the known bytes do not settle the search, some old bytes lead it to a link that stands
nowhere. -/
theorem exists_phantom (hnot : ¬Settled known (s.content.drop s.position))
    (hshort : known.length ≤ maxUrlSize) :
    ∃ old, (known ++ old).length = jobRequestBufferSize + 1 ∧
      ∀ fuel file, (s.content.drop s.position).length < fuel →
        scanning.Keeps (findHrefLoop fuel file (known ++ old)) (Phantom s.content) s := by
  induction hn : (s.content.drop s.position).length using Nat.strong_induction_on
    generalizing s known with
  | h n ih =>
      have hrest : s.content.drop s.position ≠ [] := by
        intro hnil
        rw [hnil] at hnot
        exact hnot (.finished known)
      have hne : s.read maxUrlSize ≠ [] := take_ne_nil hrest
      have hlength := length_read_le (s := s) hshort
      have hpos : 0 < n := hn ▸ List.length_pos_iff.mpr hrest
      cases searchEnds hlength with
      | @noLink a b hknown ha hno =>
          have hleft := s.advance_left
          have hlt : (s.advance.content.drop s.advance.position).length < n := by
            rw [hleft, List.length_drop, maxUrlSize]
            omega
          have hlater : ¬Settled (overlay (s.read maxUrlSize) known)
              (s.advance.content.drop s.advance.position) := by
            rw [hleft]
            exact fun h ↦ hnot (.noLink hrest hknown ha hno h)
          obtain ⟨stale, hstale, hkeeps⟩ := ih _ hlt hlater hlength rfl
          obtain ⟨old, hold, hbuffer⟩ := exists_stale hstale
          refine ⟨old, hold, fun fuel file hfuel ↦ ?_⟩
          have hread : overlay (s.read maxUrlSize) (known ++ old) = a ++ 0 :: (b ++ stale) := by
            rw [hbuffer, hknown, List.append_assoc, List.cons_append]
          cases fuel with
          | zero => omega
          | succ fuel =>
              apply keeps_findHrefLoop_noLink hne ha hno hread
              rw [hbuffer]
              exact hkeeps fuel file (by omega)
      | unclosed hknown ha hno hnul hquote =>
          exact absurd (.unclosed hrest hknown ha hno hnul hquote) hnot
      | @link a b link x hknown ha hno hnul hquote =>
          have hbad (hx : x = 34) : (s.read maxUrlSize).length ≤ a.length + 6 + link.length := by
            subst hx
            by_contra hlt
            exact hnot (.link hknown ha hno hnul hquote (Nat.lt_of_not_le hlt))
          obtain ⟨old, hold, hkeeps⟩ :=
            exists_phantom_of_link hne hknown hshort ha hno hnul hquote hbad
          exact ⟨old, hold, fun fuel file hfuel ↦ hkeeps fuel file (by omega)⟩
      | dangling hknown hshort' ha hno hnul hquote hl =>
          obtain ⟨old, hold, hkeeps⟩ :=
            exists_phantom_of_dangling hne hknown hlength hshort' ha hno hnul hquote hl
          exact ⟨old, hold, fun fuel file hfuel ↦ hkeeps fuel file (by omega)⟩

theorem NoPhantom.settled (h : NoPhantom content p) : Settled [] (content.drop p) := by
  obtain ⟨result, j, hruns, hresult⟩ := h
  by_contra hnot
  obtain ⟨old, hold, hkeeps⟩ := exists_phantom (s := ⟨content, p⟩) hnot (Nat.zero_le _)
  have hfuel : (content.drop p).length < content.length + 1 := by
    rw [List.length_drop]
    omega
  obtain ⟨tr, s, out, hrun, link, rfl, hphantom⟩ :=
    exists_run_findHref hold (hkeeps (content.length + 1) 0 hfuel)
  obtain ⟨hout, hj⟩ := hruns _ _ _ _ _ (Nat.lt_succ_self _) hrun
  obtain ⟨hstands, -⟩ := hresult link (Except.ok.inj hout).symm
  exact hphantom p (hj ▸ hstands)

/-- No call of `find_href` from this position finds a phantom, and its result does not depend on
the old bytes of its buffer, if and only if the bytes of the file settle the search. -/
theorem noPhantom_iff : NoPhantom content p ↔ Settled [] (content.drop p) := by
  refine ⟨NoPhantom.settled, fun h ↦ ?_⟩
  obtain ⟨result, j, hkeeps, hresult⟩ := h.keeps ⟨content, p⟩ rfl
  refine ⟨result, j, fun fuel file tr s out hfuel hrun ↦ ?_, hresult⟩
  refine hrun.keeps (keeps_findHref fun stale ↦ hkeeps fuel file stale ?_)
  rw [List.length_drop]
  omega

theorem not_settled (hne : rest ≠ []) (hlength : rest.length ≤ maxUrlSize) (hnul : 0 ∉ rest)
    (hlink : ¬text "href=\"" <:+: rest) : ¬Settled [] rest := by
  have hknown : overlay (rest.take maxUrlSize) [] = rest := by
    rw [overlay, List.drop_nil, List.append_nil, List.take_of_length_le hlength]
  intro h
  cases h with
  | finished => exact hne rfl
  | @noLink _ _ a b _ h =>
      rw [hknown] at h
      exact hnul (by simp [h])
  | @unclosed _ _ a b c x _ h =>
      rw [hknown] at h
      exact hnul (by simp [h])
  | @link _ _ a b link h =>
      rw [hknown] at h
      exact hlink ⟨a, link ++ 34 :: b, by rw [h, List.append_assoc]⟩

/-- The byte behind `href=` is taken for a quote whatever it is. -/
theorem unquoted_phantom : ¬NoPhantom (text "<a href=x id=\"y\">") 0 := by
  have hlink : ¬text "href=\"" <:+: text "<a href=x id=\"y\">" := by decide +kernel
  exact fun h ↦ not_settled (by decide) (by decide) (by decide) hlink h.settled

end HttpProxy
