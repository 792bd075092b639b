import HttpProxy.RequestText

/-!
# The response header on text

`parse_response_header` on the string at the front of the response buffer: where it
finds a content length, where it finds the end of the header, and what it makes of a
header block that has come in whole or in part.
-/

namespace HttpProxy

open CString

variable {s t l r : List UInt8} {p fuel : ℕ}

/-! ## The end of the header -/

/-- The number of bytes up to and including the first empty line. -/
def headerEnd : List UInt8 → Option ℕ
  | [] => none
  | c :: t => if [cr, lf, cr, lf] <+: c :: t then some 4 else (headerEnd t).map (· + 1)

theorem headerEnd_bounds {n : ℕ} (h : headerEnd t = some n) : 4 ≤ n ∧ n ≤ t.length := by
  induction t generalizing n with
  | nil => simp [headerEnd] at h
  | cons c t ih =>
      unfold headerEnd at h
      split at h
      next hpre =>
        have hlen := hpre.length_le
        simp only [Option.some_inj, List.length_cons, List.length_nil] at h hlen ⊢
        omega
      next =>
        obtain ⟨m, hm, rfl⟩ := Option.map_eq_some_iff.mp h
        have := ih hm
        simp only [List.length_cons]
        omega

theorem headerEnd_append {n : ℕ} (h : headerEnd t = some n) (r : List UInt8) :
    headerEnd (t ++ r) = some n := by
  induction t generalizing n with
  | nil => simp [headerEnd] at h
  | cons c t ih =>
      unfold headerEnd at h
      rw [List.cons_append, headerEnd, ← List.cons_append]
      split at h
      next hpre =>
        rw [if_pos (hpre.trans (List.prefix_append (c :: t) r))]
        exact h
      next hpre =>
        obtain ⟨m, hm, rfl⟩ := Option.map_eq_some_iff.mp h
        have hlen := headerEnd_bounds hm
        rw [if_neg fun hlong ↦ hpre (List.prefix_of_prefix_length_le hlong
          (List.prefix_append _ _) ?_), ih hm]
        · rfl
        · simp only [List.length_cons, List.length_nil]
          omega

theorem headerEnd_skip (hl : cr ∉ l) (r : List UInt8) :
    headerEnd (l ++ r) = (headerEnd r).map (l.length + ·) := by
  induction l with
  | nil => simp
  | cons c l ih =>
      have hc : ¬[cr, lf, cr, lf] <+: c :: (l ++ r) := by
        intro h
        have : cr = c := (List.cons_prefix_cons.mp h).1
        simp [this] at hl
      rw [List.cons_append, headerEnd, if_neg hc, ih fun h ↦ hl (List.mem_cons_of_mem _ h)]
      rw [Option.map_map]
      congr 1
      funext n
      simp
      omega

theorem findHeaderEnd_eq (hs : cstr s p = t) (hfuel : t.length < fuel) :
    findHeaderEnd fuel s (strchr s p cr) =
      .ok (match headerEnd t with | none => -1 | some n => p + n) := by
  induction fuel generalizing p t with
  | zero => omega
  | succ fuel ih =>
      by_cases hmem : cr ∈ t
      · obtain ⟨l, r, rfl, hl⟩ := List.eq_append_cons_of_mem hmem
        have hhere : cstr s (p + l.length) = cr :: r := cstr_add_of_append hs
        have hmatch : matchesCommand (cr :: r) "\r\n\r\n" = true ↔
            [cr, lf, cr, lf] <+: cr :: r := strncmpEq_iff
        rw [strchr_of_append_cons (by decide) hs hl, findHeaderEnd, hhere, headerEnd_skip hl,
          headerEnd]
        by_cases h : [cr, lf, cr, lf] <+: cr :: r
        · rw [if_pos (hmatch.mpr h), if_pos h]
          simp
          omega
        · rw [if_neg fun hm ↦ h (hmatch.mp hm), if_neg h, ih (cstr_after hs) (by
            simp at hfuel
            omega)]
          cases headerEnd r with
          | none => rfl
          | some n =>
              simp
              omega
      · have hend : headerEnd t = none := by
          have := headerEnd_skip hmem []
          simpa [headerEnd] using this
        rw [strchr_eq_none (by decide) (by rwa [hs]), hend]
        rfl

/-! ## The content length -/

/-- The text from the first complete line on that starts with `Content-length: `.  The
flag tells whether the text starts at a line. -/
def lengthField : Bool → List UInt8 → Option (List UInt8)
  | _, [] => none
  | atStart, c :: t =>
      if atStart = true ∧ lf ∈ c :: t ∧
          matchesCommandCaseInsensitive (c :: t) "Content-length: " = true then some (c :: t)
      else lengthField (c = lf) t

/-- The length a text declares, and `-1` if it has no `Content-length` line. -/
def declaredLength (t : List UInt8) : ℤ :=
  match lengthField true t with
  | none => -1
  | some field => atoi (field.dropWhile (· ≠ space))

theorem dropWhile_ne_space (hl : space ∉ l) :
    (l ++ space :: r).dropWhile (· ≠ space) = space :: r := by
  rw [dropWhile_append_cons_of_neg (by decide), List.dropWhile_eq_nil_iff.mpr]
  · rfl
  · intro c hc
    simp only [decide_eq_true_eq]
    rintro rfl
    exact hl hc

theorem lengthField_false (hl : lf ∉ l) :
    lengthField false (l ++ lf :: r) = lengthField true r := by
  induction l with
  | nil => simp [lengthField]
  | cons c l ih =>
      simp only [List.mem_cons, not_or] at hl
      have hc : decide (c = lf) = false := decide_eq_false (Ne.symm hl.1)
      rw [List.cons_append, lengthField, if_neg (by simp), hc, ih hl.2]

theorem lengthField_line (hl : lf ∉ l) :
    lengthField true (l ++ lf :: r) =
      if matchesCommandCaseInsensitive l "Content-length: " = true then some (l ++ lf :: r)
      else lengthField true r := by
  have hmatch : matchesCommandCaseInsensitive (l ++ lf :: r) "Content-length: " =
      matchesCommandCaseInsensitive l "Content-length: " :=
    matchesCommandCaseInsensitive_line _ (by decide)
  cases l with
  | nil =>
      rw [List.nil_append] at hmatch ⊢
      rw [lengthField, hmatch]
      simp [show matchesCommandCaseInsensitive [] "Content-length: " = false by decide]
  | cons c l =>
      simp only [List.mem_cons, not_or] at hl
      have hc : decide (c = lf) = false := decide_eq_false (Ne.symm hl.1)
      rw [List.cons_append] at hmatch ⊢
      rw [lengthField, hmatch, hc, lengthField_false hl.2]
      simp

theorem lengthField_eq_none (hl : lf ∉ l) (atStart : Bool) : lengthField atStart l = none := by
  induction l generalizing atStart with
  | nil => rfl
  | cons c l ih => rw [lengthField, if_neg (by tauto), ih (List.not_mem_of_not_mem_cons hl)]

theorem mem_of_matchesCommandCaseInsensitive {command : String}
    (h : matchesCommandCaseInsensitive t command = true) (hmem : space ∈ text command) :
    space ∈ t := by
  have hlower : space ∈ t.map toLower :=
    (strncasecmpEq_iff.mp h).subset (List.mem_map.mpr ⟨space, hmem, by decide⟩)
  obtain ⟨c, hc, hspace⟩ := List.mem_map.mp hlower
  rwa [toLower_eq_self_of_toLower_lt hspace (by decide)] at hc

theorem findContentLength_eq (hs : cstr s p = t) (hfuel : t.length < fuel) :
    findContentLength fuel s p = .ok (declaredLength t) := by
  induction fuel generalizing p t with
  | zero => omega
  | succ fuel ih =>
      by_cases hmem : lf ∈ t
      · obtain ⟨l, r, rfl, hl⟩ := List.eq_append_cons_of_mem hmem
        have hsearch := strchr_of_append_cons (by decide) hs hl
        have hmatch : matchesCommandCaseInsensitive (l ++ lf :: r) "Content-length: " =
            matchesCommandCaseInsensitive l "Content-length: " :=
          matchesCommandCaseInsensitive_line _ (by decide)
        simp only [findContentLength, hsearch, hs, hmatch, declaredLength, lengthField_line hl]
        split
        next hlength =>
          have hspace : space ∈ l := mem_of_matchesCommandCaseInsensitive hlength (by decide)
          obtain ⟨name, value, rfl, hname⟩ := List.eq_append_cons_of_mem hspace
          have hs' : cstr s p = name ++ space :: (value ++ lf :: r) := by simpa using hs
          rw [strchr_of_append_cons (by decide) hs' hname]
          simp only [cstr_add_of_append hs', List.append_assoc, List.cons_append,
            dropWhile_ne_space hname]
        next =>
          apply ih (cstr_after hs)
          simp only [List.length_append, List.length_cons] at hfuel
          omega
      · have hsearch : strchr s p lf = none := strchr_eq_none (by decide) (by rwa [hs])
        simp [findContentLength, hsearch, declaredLength, lengthField_eq_none hmem]

/-! ## Header blocks -/

/-- A header line without its line end. -/
structure HeaderLine (line : List UInt8) : Prop where
  ne_nil : line ≠ []
  nul : 0 ∉ line
  cr : HttpProxy.cr ∉ line
  lf : HttpProxy.lf ∉ line

theorem HeaderLine.lf_cr {line : List UInt8} (h : HeaderLine line) :
    HttpProxy.lf ∉ line ++ [HttpProxy.cr] := by
  simp only [List.mem_append, List.mem_singleton, not_or]
  exact ⟨h.lf, by decide⟩

theorem matchesCommandCaseInsensitive_cr (line : List UInt8) :
    matchesCommandCaseInsensitive (line ++ [cr]) "Content-length: " =
      matchesCommandCaseInsensitive line "Content-length: " :=
  strncasecmpEq_append_cons (by decide)

def crlfLines (lines : List (List UInt8)) : List UInt8 := lines.flatMap (· ++ [cr, lf])

/-- The lines, each ended by CRLF, and an empty line. -/
def headerBlock (lines : List (List UInt8)) : List UInt8 := crlfLines lines ++ [cr, lf]

variable {lines before after : List (List UInt8)} {name digits : List UInt8}

@[simp] theorem crlfLines_nil : crlfLines [] = [] := rfl

@[simp] theorem crlfLines_cons (line : List UInt8) (lines : List (List UInt8)) :
    crlfLines (line :: lines) = line ++ cr :: lf :: crlfLines lines := by
  simp [crlfLines]

@[simp] theorem crlfLines_append (lines lines' : List (List UInt8)) :
    crlfLines (lines ++ lines') = crlfLines lines ++ crlfLines lines' := by
  simp [crlfLines]

theorem zero_notMem_headerBlock (h : ∀ line ∈ lines, HeaderLine line) :
    0 ∉ headerBlock lines := by
  have hlines : 0 ∉ crlfLines lines := by
    simp only [crlfLines, List.mem_flatMap, not_exists, not_and]
    intro line hline hmem
    rcases List.mem_append.mp hmem with hmem | hmem
    · exact (h line hline).nul hmem
    · revert hmem
      decide
  simp only [headerBlock, List.mem_append, not_or]
  exact ⟨hlines, by decide⟩

/-- The first empty line of a header block is its end. -/
theorem headerEnd_headerBlock (h : ∀ line ∈ lines, HeaderLine line) (hne : lines ≠ [])
    (rest : List UInt8) :
    headerEnd (headerBlock lines ++ rest) = some (headerBlock lines).length := by
  induction lines with
  | nil => exact absurd rfl hne
  | cons line lines ih =>
      have hline := h line (by simp)
      cases lines with
      | nil =>
          have hblock : headerBlock [line] ++ rest = line ++ ([cr, lf, cr, lf] ++ rest) := by
            simp [headerBlock]
          rw [hblock, headerEnd_skip hline.cr]
          have hend : headerEnd ([cr, lf, cr, lf] ++ rest) = some 4 :=
            if_pos (List.prefix_append _ _)
          rw [hend]
          simp [headerBlock]
      | cons next lines =>
          have hlines : ∀ line ∈ next :: lines, HeaderLine line := fun l hl ↦ h l (by simp [hl])
          have hnext := hlines next (by simp)
          have hblock : headerBlock (line :: next :: lines) ++ rest =
              line ++ cr :: lf :: (headerBlock (next :: lines) ++ rest) := by
            simp [headerBlock]
          have hfirst : ¬[cr, lf, cr, lf] <+:
              cr :: lf :: (headerBlock (next :: lines) ++ rest) := by
            intro hpre
            have hcr : [cr, lf] <+: headerBlock (next :: lines) ++ rest := by
              simpa using hpre
            obtain ⟨c, tail, rfl⟩ := List.exists_cons_of_ne_nil hnext.ne_nil
            simp only [headerBlock, crlfLines_cons, List.cons_append] at hcr
            exact hnext.cr (by simp [(List.cons_prefix_cons.mp hcr).1])
          have hsecond : ¬[cr, lf, cr, lf] <+: lf :: (headerBlock (next :: lines) ++ rest) := by
            intro hpre
            exact absurd (List.cons_prefix_cons.mp hpre).1 (by decide)
          rw [hblock, headerEnd_skip hline.cr, headerEnd, if_neg hfirst, headerEnd,
            if_neg hsecond, ih hlines (by simp)]
          simp [headerBlock]

theorem headerEnd_of_part (h : ∀ line ∈ lines, HeaderLine line) (hne : lines ≠ [])
    (hpart : t <+: headerBlock lines) (hlen : t.length < (headerBlock lines).length) :
    headerEnd t = none := by
  cases hend : headerEnd t with
  | none => rfl
  | some n =>
      obtain ⟨r, hr⟩ := hpart
      have hwhole := headerEnd_append hend r
      have hblock := headerEnd_headerBlock h hne []
      rw [List.append_nil, ← hr, hwhole, Option.some_inj] at hblock
      have := headerEnd_bounds hend
      rw [hr] at hblock
      omega

theorem declaredLength_crlfLines (h : ∀ line ∈ lines, HeaderLine line ∧
      matchesCommandCaseInsensitive line "Content-length: " = false) (r : List UInt8) :
    declaredLength (crlfLines lines ++ r) = declaredLength r := by
  induction lines with
  | nil => simp
  | cons line lines ih =>
      obtain ⟨hline, hmatch⟩ := h line (by simp)
      have hsplit : crlfLines (line :: lines) ++ r =
          (line ++ [cr]) ++ lf :: (crlfLines lines ++ r) := by
        simp
      rw [hsplit, declaredLength, lengthField_line hline.lf_cr, matchesCommandCaseInsensitive_cr,
        hmatch]
      exact ih fun l hl ↦ h l (List.mem_cons_of_mem _ hl)

/-- A `Content-length` line with a decimal value declares the value. -/
theorem declaredLength_line (hline : HeaderLine (name ++ space :: digits))
    (hname : name.map toLower = text "content-length:")
    (hdigits : ∀ c ∈ digits, isDigit c = true) (hne : digits ≠ []) (r : List UInt8) :
    declaredLength ((name ++ space :: digits) ++ cr :: lf :: r) = digitsValue digits := by
  have hmatch : matchesCommandCaseInsensitive (name ++ space :: digits) "Content-length: " =
      true := by
    apply strncasecmpEq_iff.mpr
    have htext : (text "Content-length: ").map toLower = text "content-length:" ++ [space] := by
      decide
    rw [htext, ← hname, List.map_append, List.map_cons]
    exact (List.prefix_append_right_inj _).mpr ⟨_, rfl⟩
  have hspace : space ∉ name := by
    intro hmem
    have : toLower space ∈ text "content-length:" := by
      rw [← hname]
      exact List.mem_map_of_mem hmem
    revert this
    decide
  have hsplit : (name ++ space :: digits) ++ cr :: lf :: r =
      ((name ++ space :: digits) ++ [cr]) ++ lf :: r := by
    simp
  have hskip : (name ++ space :: (digits ++ cr :: lf :: r)).dropWhile (· ≠ space) =
      space :: (digits ++ cr :: lf :: r) := dropWhile_ne_space hspace
  rw [hsplit, declaredLength, lengthField_line hline.lf_cr, matchesCommandCaseInsensitive_cr,
    hmatch, if_pos rfl]
  simp only [List.append_assoc, List.cons_append, List.nil_append, hskip]
  exact atoi_space_digits hdigits hne (by decide)

/-! ## The whole computation -/

theorem length_cstr_le (s : List UInt8) (p : ℕ) : (cstr s p).length ≤ s.length := by
  calc (cstr s p).length ≤ (s.drop p).length := (List.takeWhile_sublist _).length_le
    _ ≤ s.length := by simp

/-- The header length of a text: up to the first empty line, or, without a content
length, up to the last line feed. -/
def headerLength (t : List UInt8) : Except Fault ℤ :=
  if declaredLength t = -1 then
    match lastIdxOf? t lf with
    | none => .error .nullPointer
    | some i => .ok (i + 1)
  else .ok (match headerEnd t with | none => -1 | some n => n)

/-- What `parse_response_header` makes of the text in the buffer. -/
theorem parseResponseHeader_eq (hs : cstr s 0 = t) :
    parseResponseHeader s =
      if ¬InIntRange (declaredLength t) then .error .signedOverflow
      else (headerLength t).map (·, declaredLength t) := by
  have hlen := length_cstr_le s 0
  have hfuel : t.length < s.length + 1 := by
    rw [← hs]
    omega
  have hfind := findContentLength_eq hs hfuel
  have hend := findHeaderEnd_eq hs hfuel
  have hlast : strrchr s 0 lf = lastIdxOf? t lf := by
    rw [strrchr_of_ne_zero (by decide), hs]
    simp
  simp only [parseResponseHeader, headerLength, hfind, hend, hlast, bind, Except.bind]
  split
  · rfl
  · split
    next hnone =>
      rw [hnone]
      cases lastIdxOf? t lf <;> rfl
    next =>
      cases headerEnd t <;> simp [Except.map]

end HttpProxy
