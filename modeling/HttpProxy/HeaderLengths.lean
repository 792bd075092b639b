import HttpProxy.ResponseText

/-!
# The two lengths of a whole header

`parse_response_header` on a buffer that holds a whole header block and anything behind
it.  With a `Content-length` line both scans stop inside the block; without one the scan
for the field runs on into the body, and so does the search for the last line feed.
-/

namespace HttpProxy

open CString

variable {lines : List (List UInt8)} {line digits body : List UInt8}

/-- Whether a header line declares the length of the content. -/
def declaresLength (line : List UInt8) : Bool :=
  matchesCommandCaseInsensitive line "Content-length: "

/-- The value of a line with the name `Content-length`. -/
def lengthValue (line : List UInt8) : List UInt8 := line.drop (text "Content-length: ").length

theorem cstr_headerBlock (h : ∀ line ∈ lines, HeaderLine line) (body : List UInt8) :
    cstr (headerBlock lines ++ body) 0 = headerBlock lines ++ cstr body 0 :=
  cstr_append (zero_notMem_headerBlock h) body

/-- A line that declares a length is a name, a space and the value. -/
theorem exists_name_of_declaresLength (h : declaresLength line = true) :
    ∃ name, line = name ++ space :: lengthValue line ∧
      name.map toLower = text "content-length:" := by
  have hlower : (text "content-length:" ++ [space]) <+: line.map toLower := by
    have htext : (text "Content-length: ").map toLower = text "content-length:" ++ [space] := by
      decide
    rw [← htext]
    exact strncasecmpEq_iff.mp h
  obtain ⟨name, value, hline, hname, hvalue⟩ := List.map_eq_append_iff.mp hlower.choose_spec.symm
  obtain ⟨start, last, rfl, hstart, hlast⟩ := List.map_eq_append_iff.mp hname
  obtain ⟨c, rest, rfl, hc, hrest⟩ := List.map_eq_cons_iff.mp hlast
  obtain rfl : rest = [] := List.map_eq_nil_iff.mp hrest
  obtain rfl : c = space := toLower_eq_self_of_toLower_lt hc (by decide)
  have hlen : (text "Content-length: ").length = (start ++ [space]).length := by
    have := congrArg List.length hstart
    rw [List.length_map] at this
    rw [List.length_append, this]
    decide
  refine ⟨start, ?_, hstart⟩
  rw [hline, lengthValue, hlen, List.drop_left]
  simp

/-! ## With a content length -/

/-- The header up to the end of the line that declares the length. -/
def upToDeclaration (lines : List (List UInt8)) : List UInt8 :=
  crlfLines (lines.take (lines.findIdx declaresLength + 1))

/-- The header without the lines up to the one that declares the length. -/
def afterDeclaration (lines : List (List UInt8)) : List UInt8 :=
  headerBlock (lines.drop (lines.findIdx declaresLength + 1))

theorem headerBlock_eq_declaration (lines : List (List UInt8)) :
    headerBlock lines = upToDeclaration lines ++ afterDeclaration lines := by
  rw [upToDeclaration, afterDeclaration, headerBlock, headerBlock, ← List.append_assoc,
    ← crlfLines_append, List.take_append_drop]

theorem upToDeclaration_eq {before after : List (List UInt8)} (hdeclares : declaresLength line)
    (hbefore : ∀ l ∈ before, (!declaresLength l) = true) :
    upToDeclaration (before ++ line :: after) = crlfLines before ++ (line ++ [cr, lf]) := by
  have hindex : (before ++ line :: after).findIdx declaresLength = before.length := by
    rw [List.findIdx_append, if_neg, List.findIdx_cons, hdeclares]
    · simp
    · rw [List.findIdx_lt_length]
      rintro ⟨l, hl, hlength⟩
      simpa [hlength] using hbefore l hl
  rw [upToDeclaration, hindex, List.take_append, List.take_of_length_le (Nat.le_succ _),
    Nat.add_sub_cancel_left, List.take_succ_cons, List.take_zero, crlfLines_append]
  simp

theorem declaredLength_upToDeclaration (h : ∀ line ∈ lines, HeaderLine line)
    (hfirst : lines.find? declaresLength = some line)
    (hdigits : ∀ c ∈ lengthValue line, isDigit c = true) (hne : lengthValue line ≠ [])
    (rest : List UInt8) :
    declaredLength (upToDeclaration lines ++ rest) = digitsValue (lengthValue line) := by
  obtain ⟨hdeclares, before, after, rfl, hbefore⟩ := List.find?_eq_some_iff_append.mp hfirst
  obtain ⟨name, hline, hname⟩ := exists_name_of_declaresLength hdeclares
  have hsplit : upToDeclaration (before ++ line :: after) ++ rest =
      crlfLines before ++ (line ++ cr :: lf :: rest) := by
    rw [upToDeclaration_eq hdeclares hbefore]
    simp
  have hskip : ∀ l ∈ before, HeaderLine l ∧
      matchesCommandCaseInsensitive l "Content-length: " = false := by
    intro l hl
    have hother := hbefore l hl
    rw [Bool.not_eq_true'] at hother
    exact ⟨h l (by simp [hl]), hother⟩
  have hheader : HeaderLine line := h line (by simp)
  rw [hsplit, declaredLength_crlfLines hskip]
  generalize lengthValue line = digits at hline hdigits hne ⊢
  subst hline
  exact declaredLength_line hheader hname hdigits hne _

theorem declaredLength_headerBlock (h : ∀ line ∈ lines, HeaderLine line)
    (hfirst : lines.find? declaresLength = some line)
    (hdigits : ∀ c ∈ lengthValue line, isDigit c = true) (hne : lengthValue line ≠ [])
    (rest : List UInt8) :
    declaredLength (headerBlock lines ++ rest) = digitsValue (lengthValue line) := by
  rw [headerBlock_eq_declaration, List.append_assoc]
  exact declaredLength_upToDeclaration h hfirst hdigits hne _

/-- A header block whose first `Content-length` line has a decimal value below `2 ^ 31` is
measured exactly, whatever the body is. -/
theorem parseResponseHeader_headerBlock (h : ∀ line ∈ lines, HeaderLine line)
    (hfirst : lines.find? declaresLength = some line)
    (hdigits : ∀ c ∈ lengthValue line, isDigit c = true) (hne : lengthValue line ≠ [])
    (hbound : digitsValue (lengthValue line) < 2147483648) (body : List UInt8) :
    parseResponseHeader (headerBlock lines ++ body) =
      .ok (((headerBlock lines).length : ℤ), (digitsValue (lengthValue line) : ℤ)) := by
  have hdeclared := declaredLength_headerBlock h hfirst hdigits hne (cstr body 0)
  have hlines : lines ≠ [] := by
    rintro rfl
    simp at hfirst
  have hend := headerEnd_headerBlock h hlines (cstr body 0)
  have hrange : InIntRange (digitsValue (lengthValue line) : ℤ) := by
    constructor <;> omega
  have hsome : (digitsValue (lengthValue line) : ℤ) ≠ -1 := by omega
  rw [parseResponseHeader_eq (cstr_headerBlock h body), hdeclared, if_neg (not_not_intro hrange),
    headerLength, hdeclared, if_neg hsome, hend]
  rfl

theorem parseResponseHeader_headerBlock_twoLengths :
    parseResponseHeader (headerBlock [text "HTTP/1.1 200 OK", text "Content-Length: 9"] ++
      text "\r\n\r\nContent-length: 3\n") = .ok (38, 9) := by
  have hheader : ∀ line ∈ [text "HTTP/1.1 200 OK", text "Content-Length: 9"],
      HeaderLine line := by
    intro line hmem
    simp only [List.mem_cons, List.not_mem_nil, or_false] at hmem
    rcases hmem with rfl | rfl <;> exact ⟨by decide, by decide, by decide, by decide⟩
  have hfirst : [text "HTTP/1.1 200 OK", text "Content-Length: 9"].find? declaresLength =
      some (text "Content-Length: 9") := by
    decide
  have hvalue : lengthValue (text "Content-Length: 9") = [57] := by decide
  have hnine : digitsValue [57] = 9 := by decide
  apply parseResponseHeader_headerBlock hheader hfirst
  · rw [hvalue]
    intro c hc
    rw [List.mem_singleton.mp hc]
    rfl
  · rw [hvalue]
    exact List.cons_ne_nil _ _
  · rw [hvalue, hnine]
    omega

/-! ## Without a content length -/

theorem declaredLength_noLength (h : ∀ line ∈ lines, HeaderLine line)
    (hnone : ∀ line ∈ lines, declaresLength line = false) (rest : List UInt8) :
    declaredLength (headerBlock lines ++ rest) = declaredLength rest := by
  have hsplit : headerBlock lines ++ rest = crlfLines lines ++ ([cr] ++ lf :: rest) := by
    simp [headerBlock]
  have hempty : matchesCommandCaseInsensitive [cr] "Content-length: " = false := by decide
  rw [hsplit, declaredLength_crlfLines fun line hline ↦ ⟨h line hline, hnone line hline⟩,
    declaredLength, lengthField_line (by decide), hempty]
  rfl

theorem headerBlock_eq_append_lf (lines : List (List UInt8)) :
    ∃ start, headerBlock lines = start ++ [lf] :=
  ⟨crlfLines lines ++ [cr], by simp [headerBlock]⟩

/-- The last line feed is the one of the empty line only if the body has none. -/
theorem lastIdxOf?_headerBlock_iff (lines : List (List UInt8)) (body : List UInt8) :
    (∃ i, lastIdxOf? (headerBlock lines ++ body) lf = some i ∧
      i + 1 = (headerBlock lines).length) ↔ lf ∉ body := by
  obtain ⟨start, hblock⟩ := headerBlock_eq_append_lf lines
  constructor
  · rintro ⟨i, hi, hlen⟩
    obtain ⟨before, after, hsplit, hafter, hbefore⟩ := split_of_lastIdxOf? hi
    have hboth : start ++ lf :: body = before ++ lf :: after := by
      rw [← hsplit, hblock]
      simp
    have hstart : start.length = before.length := by
      rw [hblock, List.length_append, List.length_singleton] at hlen
      omega
    obtain ⟨-, hrest⟩ := List.append_inj hboth hstart
    rw [(List.cons.inj hrest).2]
    exact hafter
  · intro hbody
    refine ⟨start.length, ?_, by simp [hblock]⟩
    rw [hblock, List.append_assoc, List.singleton_append]
    exact lastIdxOf?_append_cons hbody

/-- Without a line that declares a length the block is measured exactly if and only if no
line of the body ends in the buffer. -/
theorem parseResponseHeader_noLength_iff (h : ∀ line ∈ lines, HeaderLine line)
    (hnone : ∀ line ∈ lines, declaresLength line = false) (body : List UInt8) :
    parseResponseHeader (headerBlock lines ++ body) =
      .ok (((headerBlock lines).length : ℤ), -1) ↔ lf ∉ cstr body 0 := by
  rw [parseResponseHeader_eq (cstr_headerBlock h body), declaredLength_noLength h hnone,
    ← lastIdxOf?_headerBlock_iff lines]
  by_cases hlength : declaredLength (cstr body 0) = -1
  · rw [headerLength, declaredLength_noLength h hnone, hlength, if_neg (by decide), if_pos rfl]
    cases lastIdxOf? (headerBlock lines ++ cstr body 0) lf with
    | none => simp [Except.map]
    | some i =>
        simp only [Except.map, Except.ok.injEq, Prod.mk.injEq, and_true, Option.some.injEq,
          exists_eq_left']
        omega
  · have hmem : lf ∈ cstr body 0 := by
      by_contra hbody
      rw [declaredLength, lengthField_eq_none hbody] at hlength
      exact hlength rfl
    rw [lastIdxOf?_headerBlock_iff]
    constructor
    · intro hparse
      split at hparse
      next => cases hparse
      next =>
        cases hheader : headerLength (headerBlock lines ++ cstr body 0) with
        | error fault =>
            rw [hheader] at hparse
            cases hparse
        | ok n =>
            rw [hheader] at hparse
            exact absurd (Prod.mk.inj (Except.ok.inj hparse)).2 hlength
    · exact fun hbody ↦ absurd hmem hbody

/-- A text without line feed has no length and, as the code goes on, no end either. -/
theorem parseResponseHeader_nullPointer_iff (s : List UInt8) :
    parseResponseHeader s = .error .nullPointer ↔ lf ∉ cstr s 0 := by
  rw [parseResponseHeader_eq rfl]
  constructor
  · intro hparse hmem
    obtain ⟨i, hi⟩ := exists_lastIdxOf? hmem
    split at hparse
    next => cases hparse
    next =>
      rw [headerLength, hi] at hparse
      split at hparse <;> cases hparse
  · intro hmem
    have hlength : declaredLength (cstr s 0) = -1 := by
      rw [declaredLength, lengthField_eq_none hmem]
    rw [headerLength, hlength, lastIdxOf?_eq_none hmem]
    rfl

/-- The buffer is a header block without a line that declares a length, and a body. -/
structure HeadWithoutLength (s : List UInt8) (lines : List (List UInt8)) (body : List UInt8) :
    Prop where
  whole : s = headerBlock lines ++ body
  header : ∀ line ∈ lines, HeaderLine line
  noLength : ∀ line ∈ lines, declaresLength line = false

/-- What a caller expects of a header that declares no length: the length of the header and
`-1`, and no pointer made of a failed search where there is no line. -/
structure MeasuredWithoutLength (s : List UInt8) : Prop where
  exact : ∀ lines body, HeadWithoutLength s lines body →
    parseResponseHeader s = .ok (((headerBlock lines).length : ℤ), -1)
  noLine : lf ∉ cstr s 0 → parseResponseHeader s ≠ .error .nullPointer

theorem measuredWithoutLength_iff (s : List UInt8) :
    MeasuredWithoutLength s ↔
      lf ∈ cstr s 0 ∧ ∀ lines body, HeadWithoutLength s lines body → lf ∉ cstr body 0 := by
  have hexact : ∀ lines body, HeadWithoutLength s lines body →
      (parseResponseHeader s = .ok (((headerBlock lines).length : ℤ), -1) ↔
        lf ∉ cstr body 0) := by
    intro lines body hs
    rw [hs.whole]
    exact parseResponseHeader_noLength_iff hs.header hs.noLength body
  constructor
  · intro h
    constructor
    · by_contra hmem
      exact h.noLine hmem ((parseResponseHeader_nullPointer_iff s).mpr hmem)
    · exact fun lines body hs ↦ (hexact lines body hs).mp (h.exact lines body hs)
  · rintro ⟨hmem, hbody⟩
    refine ⟨fun lines body hs ↦ (hexact lines body hs).mpr (hbody lines body hs), ?_⟩
    exact fun hnone ↦ absurd hmem hnone

/-- A line feed in the body counts as the end of the header, and an empty buffer makes the
parser compute with a null pointer. -/
theorem bodyLine_not_measured :
    ¬MeasuredWithoutLength (headerBlock [text "HTTP/1.1 200 OK"] ++ text "<p>
") ∧
      ¬MeasuredWithoutLength [] := by
  constructor
  · intro h
    have hline : ∀ line ∈ [text "HTTP/1.1 200 OK"],
        HeaderLine line ∧ declaresLength line = false := by
      intro line hmem
      obtain rfl := List.mem_singleton.mp hmem
      exact ⟨⟨by decide, by decide, by decide, by decide⟩, by decide⟩
    have hparse := h.exact [text "HTTP/1.1 200 OK"] (text "<p>
")
      ⟨rfl, fun line hmem ↦ (hline line hmem).1, fun line hmem ↦ (hline line hmem).2⟩
    revert hparse
    decide
  · intro h
    exact h.noLine (by decide) (by decide)

end HttpProxy
