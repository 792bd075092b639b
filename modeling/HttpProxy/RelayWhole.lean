import HttpProxy.Relay

/-!
# When a response is relayed whole

What the relay delivers is a function of the pieces, and so is whether it delivers all of
them.  For a response with a content length it depends on how much of the header the
first piece holds; a response without one is whole only in one piece, or by accident of a
body that looks like a header.
-/

namespace HttpProxy

open CString Interaction Protocol

variable {grant : Grant} {opened cacheFile : Option FileHandle} {job : Job}
  {serverAddress : Address} {path hostname : List UInt8} {pieces : List (List UInt8)}
  {initial : OpenFile} {t : List UInt8}

/-- With iterations enough for its loops the request passes the whole stream to its client
and, as a writer, to the cache file, whether or not it returns afterwards. -/
def RelaysWhole (grant : Grant) (opened cacheFile : Option FileHandle) (job : Job)
    (serverAddress : Address) (path hostname : List UInt8) (pieces : List (List UInt8))
    (initial : OpenFile) : Prop :=
  ∃ bound, ∀ fuel ≥ bound, ∀ (tr : Trace) (s' : RelayState) (out : Except Fault Status),
    (relaying grant opened true).Run (.start pieces initial)
      (handleValidRequest fuel cacheFile job serverAddress path hostname) tr s' out →
    (job.clientSocketFd ≠ -1 → s'.toClient = pieces.flatten) ∧
      ((cacheAnswer path grant).action = .shouldWrite → s'.toFile = pieces.flatten)

theorem relaysWhole_iff_delivered (hfetch : Fetches job (cacheAnswer path grant) opened)
    (hpieces : ∀ piece ∈ pieces, piece.length ≤ jobRequestBufferSize)
    (hne : pieces.flatten ≠ []) :
    RelaysWhole grant opened cacheFile job serverAddress path hostname pieces initial ↔
      ((cacheAnswer path grant).action = .shouldWrite → opened ≠ none) ∧
        (deliveredPieces pieces).flatten = pieces.flatten := by
  have hfile : (cacheAnswer path grant).action = .shouldWrite →
      relayFile (cacheAnswer path grant) opened cacheFile = opened := by
    intro hwrite
    cases hgrant : cacheAnswer path grant with
    | shouldWrite record => rfl
    | _ => simp [hgrant, Grant.action] at hwrite
  constructor
  · rintro ⟨bound, hbound⟩
    obtain ⟨tr, s', out, hrun⟩ := exists_run (relaying_total true)
      (handleValidRequest (bound + pieces.length + 1) cacheFile job serverAddress path hostname)
      (.start pieces initial : RelayState)
    obtain ⟨hclient, hwrite⟩ := hbound _ (by omega) tr s' out hrun
    have hend := hrun.keeps (keeps_handleValidRequest_kind cacheFile hfetch (by omega) hpieces)
    have htoClient := hend.toClient
    have htoFile := hend.toFile
    simp only [RelayState.start, List.nil_append] at htoClient htoFile
    refine ⟨fun haction hopened ↦ ?_, ?_⟩
    · rw [hfile haction, hopened, hwrite haction] at htoFile
      exact hne htoFile
    · by_cases hfd : job.clientSocketFd = -1
      · have haction := hfetch.1 hfd
        rw [hfile haction, hwrite haction] at htoFile
        cases opened with
        | none => exact absurd htoFile hne
        | some file => exact htoFile.symm
      · rw [if_neg hfd, hclient hfd] at htoClient
        exact htoClient.symm
  · rintro ⟨hopened, hwhole⟩
    refine ⟨pieces.length + 1, fun fuel hfuel tr s' out hrun ↦ ?_⟩
    have hend := hrun.keeps (keeps_handleValidRequest_kind cacheFile hfetch (by omega) hpieces)
    have htoClient := hend.toClient
    have htoFile := hend.toFile
    simp only [RelayState.start, List.nil_append, hwhole] at htoClient htoFile
    constructor
    · intro hfd
      rw [htoClient, if_neg hfd]
    · intro haction
      obtain ⟨file, hopen⟩ := Option.ne_none_iff_exists'.mp (hopened haction)
      rw [htoFile, hfile haction, hopen]
      rfl

/-! ## Delivering all pieces -/

theorem takenPieces_flatten_iff {content contentRead : ℤ} (hread : -2147483648 ≤ contentRead)
    (hpieces : ∀ piece ∈ pieces, piece ≠ []) :
    (takenPieces content contentRead pieces).flatten = pieces.flatten ↔
      pieces = [] ∨ contentRead + pieces.dropLast.flatten.length < content ∧
        InIntRange (contentRead + pieces.flatten.length) := by
  induction pieces generalizing contentRead with
  | nil => simp [takenPieces]
  | cons piece pieces ih =>
      have hpiece := hpieces piece (by simp)
      have hrest : ∀ piece ∈ pieces, piece ≠ [] := fun p hp ↦ hpieces p (by simp [hp])
      have hflatten : (piece :: pieces).flatten.length = piece.length + pieces.flatten.length := by
        simp
      rw [takenPieces]
      split
      next hstop =>
        apply iff_of_false (by simpa using fun h ↦ absurd h hpiece)
        rintro (h | ⟨hlt, hrange⟩)
        · simp at h
        · unfold InIntRange at *
          omega
      next hgo =>
        obtain ⟨hmore, hrange⟩ := not_or.mp hgo
        rw [List.flatten_cons, List.flatten_cons, List.append_right_inj, ih (by omega) hrest]
        unfold InIntRange at *
        cases pieces with
        | nil =>
            simp
            omega
        | cons next pieces =>
            simp only [List.dropLast_cons_cons, List.flatten_cons, List.length_append] at *
            simp
            omega

theorem headerLength_bounds {header : ℤ} (h : headerLength t = .ok header) :
    -1 ≤ header ∧ header ≤ t.length := by
  unfold headerLength at h
  split at h
  · cases hlast : lastIdxOf? t lf with
    | none => simp [hlast] at h
    | some i =>
        obtain ⟨a, b, rfl, -, rfl⟩ := split_of_lastIdxOf? hlast
        simp only [hlast, Except.ok.injEq] at h
        simp
        omega
  · cases hend : headerEnd t with
    | none =>
        simp only [hend, Except.ok.injEq] at h
        omega
    | some n =>
        have := headerEnd_bounds hend
        simp only [hend, Except.ok.injEq] at h
        omega

theorem deliveredPieces_flatten_iff_of_parse {first : List UInt8} {rest : List (List UInt8)}
    {lengths : ℤ × ℤ} (hpieces : ∀ piece ∈ first :: rest, piece ≠ [])
    (hparse : parseResponseHeader (responseBuffer first) = .ok lengths)
    (hheader : lengths.1 ≤ first.length) :
    (deliveredPieces (first :: rest)).flatten = (first :: rest).flatten ↔
      rest = [] ∨ InIntRange (lengths.1 + lengths.2) ∧
        ((first :: rest).dropLast.flatten.length : ℤ) < lengths.1 + lengths.2 ∧
        InIntRange ((first :: rest).flatten.length - lengths.1) := by
  have hrest : ∀ piece ∈ rest, piece ≠ [] := fun p hp ↦ hpieces p (by simp [hp])
  have hflatten : (first ++ rest.flatten).length = first.length + rest.flatten.length := by simp
  rw [deliveredPieces_cons hparse, List.flatten_cons]
  cases hr : rest with
  | nil => exact iff_of_true (by split <;> simp [takenPieces]) (.inl rfl)
  | cons next pieces =>
      have hdrop : (first :: rest).dropLast.flatten.length =
          first.length + rest.dropLast.flatten.length := by
        rw [hr, List.dropLast_cons_cons]
        simp
      have hrne : rest ≠ [] := by simp [hr]
      rw [← hr, or_iff_right hrne]
      split
      next hmore =>
        rw [List.flatten_cons, List.append_right_inj, takenPieces_flatten_iff (by omega) hrest,
          or_iff_right hrne]
        unfold InIntRange at *
        omega
      next hmore =>
        apply iff_of_false
        · rw [List.flatten_cons, List.append_right_inj, hr, List.flatten_cons]
          exact fun h ↦ hrest next (by simp [hr]) (List.append_eq_nil_iff.mp h.symm).1
        · rintro ⟨hrange, hlt, -⟩
          exact hmore ⟨hrange, by omega⟩

/-- All pieces are delivered if the first one shows the lengths, and the last one is
still needed to reach them. -/
theorem deliveredPieces_flatten_iff {first : List UInt8} {rest : List (List UInt8)}
    (hpieces : ∀ piece ∈ first :: rest, piece ≠ []) :
    (deliveredPieces (first :: rest)).flatten = (first :: rest).flatten ↔
      ∃ header, headerLength (cstr first 0) = .ok header ∧
        InIntRange (declaredLength (cstr first 0)) ∧
        (rest = [] ∨ InIntRange (header + declaredLength (cstr first 0)) ∧
          ((first :: rest).dropLast.flatten.length : ℤ) <
            header + declaredLength (cstr first 0) ∧
          InIntRange ((first :: rest).flatten.length - header)) := by
  have hfirst := hpieces first (by simp)
  have hcstr := length_cstr_le first 0
  cases hparse : parseResponseHeader (responseBuffer first) with
  | error fault =>
      apply iff_of_false
      · simpa [deliveredPieces, hparse] using fun h ↦ absurd h hfirst
      · rintro ⟨header, hheader, hrange, -⟩
        have hok : parseResponseHeader (responseBuffer first) =
            .ok (header, declaredLength (cstr first 0)) :=
          parseResponseHeader_responseBuffer_iff.mpr ⟨hheader, hrange, rfl⟩
        rw [hparse] at hok
        cases hok
  | ok lengths =>
      obtain ⟨hheader, hrange, hcontent⟩ := parseResponseHeader_responseBuffer_iff.mp hparse
      have hbounds := headerLength_bounds hheader
      rw [deliveredPieces_flatten_iff_of_parse hpieces hparse (by omega), hheader, ← hcontent]
      simp only [Except.ok.injEq, exists_eq_left', hrange, true_and]

/-! ## Responses -/

/-- A response with a content length: a header block with a decimal `Content-length` line,
and a body of that length. -/
structure LengthResponse where
  before : List (List UInt8)
  name : List UInt8
  digits : List UInt8
  after : List (List UInt8)
  body : List UInt8
  before_lines : ∀ line ∈ before, HeaderLine line ∧
    matchesCommandCaseInsensitive line "Content-length: " = false
  length_line : HeaderLine (name ++ space :: digits)
  after_lines : ∀ line ∈ after, HeaderLine line
  name_eq : name.map toLower = text "content-length:"
  digits_decimal : ∀ c ∈ digits, isDigit c = true
  digits_ne_nil : digits ≠ []
  length_body : body.length = digitsValue digits

namespace LengthResponse

variable (response : LengthResponse)

def lines : List (List UInt8) :=
  response.before ++ (response.name ++ space :: response.digits) :: response.after

def header : List UInt8 := headerBlock response.lines

/-- The header up to the end of its `Content-length` line. -/
def upToLength : List UInt8 :=
  crlfLines response.before ++ (response.name ++ space :: response.digits) ++ [cr, lf]

def bytes : List UInt8 := response.header ++ response.body

theorem lines_headerLine : ∀ line ∈ response.lines, HeaderLine line := by
  intro line hline
  simp only [lines, List.mem_append, List.mem_cons] at hline
  rcases hline with hline | rfl | hline
  · exact (response.before_lines line hline).1
  · exact response.length_line
  · exact response.after_lines line hline

theorem lines_ne_nil : response.lines ≠ [] := by simp [lines]

theorem header_eq : response.header =
    response.upToLength ++ headerBlock response.after := by
  simp [header, headerBlock, lines, upToLength]

theorem declaredLength_upToLength (r : List UInt8) :
    declaredLength (response.upToLength ++ r) = response.body.length := by
  have hsplit : response.upToLength ++ r = crlfLines response.before ++
      ((response.name ++ space :: response.digits) ++ cr :: lf :: r) := by
    simp [upToLength]
  rw [hsplit, declaredLength_crlfLines response.before_lines,
    declaredLength_line response.length_line response.name_eq response.digits_decimal
      response.digits_ne_nil, response.length_body]

theorem bytes_ne_nil : response.bytes ≠ [] := by
  intro h
  have hblock := headerEnd_headerBlock response.lines_headerLine response.lines_ne_nil []
  rw [show headerBlock response.lines = [] from (List.append_eq_nil_iff.mp h).1] at hblock
  cases hblock

theorem prefix_of_not_upToLength {first : List UInt8} (hpart : first <+: response.header)
    (hupTo : ¬response.upToLength <+: first) :
    first <+:
      crlfLines response.before ++ ((response.name ++ space :: response.digits) ++ [cr]) := by
  have hsplit : response.header = (crlfLines response.before ++
      ((response.name ++ space :: response.digits) ++ [cr])) ++
        lf :: headerBlock response.after := by
    rw [response.header_eq, upToLength]
    simp
  have hupper : response.upToLength = (crlfLines response.before ++
      ((response.name ++ space :: response.digits) ++ [cr])) ++ [lf] := by
    simp [upToLength]
  have hlen : first.length < response.upToLength.length := by
    by_contra hle
    refine hupTo (List.prefix_of_prefix_length_le ?_ hpart (not_lt.mp hle))
    exact response.header_eq ▸ List.prefix_append _ _
  rw [hupper, List.length_append, List.length_singleton] at hlen
  rw [hsplit] at hpart
  exact List.prefix_of_prefix_length_le hpart (List.prefix_append _ _) (by omega)

end LengthResponse

theorem declaredLength_of_part {before : List (List UInt8)} {line : List UInt8}
    (hbefore : ∀ line ∈ before, HeaderLine line ∧
      matchesCommandCaseInsensitive line "Content-length: " = false) (hline : lf ∉ line)
    (hpart : t <+: crlfLines before ++ line) : declaredLength t = -1 := by
  induction before generalizing t with
  | nil =>
      have hlf : lf ∉ t := fun h ↦ hline (hpart.subset (by simpa using h))
      rw [declaredLength, lengthField_eq_none hlf]
  | cons first before ih =>
      obtain ⟨hfirst, hmatch⟩ := hbefore first (by simp)
      have hsplit : crlfLines (first :: before) ++ line =
          (first ++ [cr]) ++ lf :: (crlfLines before ++ line) := by
        simp
      rw [hsplit] at hpart
      by_cases hlf : lf ∈ t
      · obtain ⟨l, r, rfl, hl⟩ := List.eq_append_cons_of_mem hlf
        obtain ⟨z, hz⟩ := hpart
        rw [List.append_assoc, List.cons_append] at hz
        obtain ⟨rfl, hr⟩ := first_split_unique hz hl hfirst.lf_cr
        rw [declaredLength, lengthField_line hl, matchesCommandCaseInsensitive_cr, hmatch]
        exact ih (fun l hl ↦ hbefore l (List.mem_cons_of_mem _ hl)) ⟨z, hr⟩
      · rw [declaredLength, lengthField_eq_none hlf]

theorem cstr_append_of_notMem {a : List UInt8} (ha : 0 ∉ a) (b : List UInt8) :
    cstr (a ++ b) 0 = a ++ cstr b 0 := by
  simp only [cstr, List.drop_zero]
  refine List.takeWhile_append_of_pos fun c hc ↦ ?_
  simp only [decide_eq_true_eq]
  rintro rfl
  exact ha hc

theorem first_piece_cases {header body first : List UInt8} (h : first <+: header ++ body) :
    (∃ r, first = header ++ r) ∨ first <+: header ∧ first.length < header.length := by
  rcases le_or_gt header.length first.length with hle | hlt
  · obtain ⟨r, rfl⟩ := List.prefix_of_prefix_length_le (List.prefix_append header body) h hle
    exact .inl ⟨r, rfl⟩
  · exact .inr ⟨List.prefix_of_prefix_length_le h (List.prefix_append _ _) hlt.le, hlt⟩

theorem text_of_part {lines : List (List UInt8)} {first : List UInt8}
    (hlines : ∀ line ∈ lines, HeaderLine line) (hne : lines ≠ [])
    (hpart : first <+: headerBlock lines) (hlen : first.length < (headerBlock lines).length) :
    cstr first 0 = first ∧ headerEnd first = none := by
  have hnul : 0 ∉ first := fun h ↦ zero_notMem_headerBlock hlines (hpart.subset h)
  refine ⟨?_, headerEnd_of_part hlines hne hpart hlen⟩
  simpa [cstr] using cstr_append_of_notMem hnul []

theorem text_of_whole {lines : List (List UInt8)} (hlines : ∀ line ∈ lines, HeaderLine line)
    (hne : lines ≠ []) (r : List UInt8) :
    cstr (headerBlock lines ++ r) 0 = headerBlock lines ++ cstr r 0 ∧
      headerEnd (headerBlock lines ++ cstr r 0) = some (headerBlock lines).length :=
  ⟨cstr_append_of_notMem (zero_notMem_headerBlock hlines) r,
    headerEnd_headerBlock hlines hne (cstr r 0)⟩

theorem LengthResponse.text_of_header (response : LengthResponse) (r : List UInt8) :
    cstr (response.header ++ r) 0 = response.header ++ cstr r 0 ∧
      headerEnd (response.header ++ cstr r 0) = some response.header.length :=
  text_of_whole response.lines_headerLine response.lines_ne_nil r

theorem length_dropLast_lt (hne : pieces ≠ []) (hpieces : ∀ piece ∈ pieces, piece ≠ []) :
    pieces.dropLast.flatten.length < pieces.flatten.length := by
  have hlast := List.length_pos_iff.mpr (hpieces _ (List.getLast_mem hne))
  conv_rhs => rw [← List.dropLast_concat_getLast hne]
  simp only [List.flatten_append, List.length_append, List.flatten_cons, List.flatten_nil,
    List.append_nil]
  omega

/-- A response with a content length arrives whole if the first piece holds its header;
otherwise the header counts as one byte less than nothing, and the response only arrives
whole if the first piece holds the content length and the last piece more than one byte. -/
theorem LengthResponse.delivered_iff (response : LengthResponse)
    (hfits : response.header.length + response.body.length < 2147483648)
    (hpieces : ∀ piece ∈ pieces, piece ≠ []) (hflatten : pieces.flatten = response.bytes) :
    (deliveredPieces pieces).flatten = pieces.flatten ↔
      response.header <+: pieces.headD [] ∨
        response.upToLength <+: pieces.headD [] ∧
          pieces.dropLast.flatten.length + 1 < response.body.length ∧
          response.header.length + response.body.length + 1 < 2147483648 := by
  have hlines := response.lines_headerLine
  have hne := response.lines_ne_nil
  have htotal : pieces.flatten.length = response.header.length + response.body.length := by
    rw [hflatten, bytes, List.length_append]
  have hblock := headerEnd_bounds (headerEnd_headerBlock hlines hne [])
  rw [List.append_nil] at hblock
  cases hs : pieces with
  | nil =>
      rw [hs, List.flatten_nil, List.length_nil] at htotal
      simp only [header] at htotal
      omega
  | cons first rest =>
      have hpre : first <+: response.header ++ response.body :=
        ⟨rest.flatten, by rw [← List.flatten_cons, ← hs, hflatten]; rfl⟩
      have hdrop := length_dropLast_lt (by simp [hs]) hpieces
      rw [hs] at hpieces htotal hdrop
      rw [deliveredPieces_flatten_iff hpieces, List.headD_cons]
      rcases first_piece_cases hpre with ⟨r, rfl⟩ | ⟨hpart, hlen⟩
      · -- The whole header: both lengths are right.
        obtain ⟨htext, hend⟩ := response.text_of_header r
        have hcontent : declaredLength (response.header ++ cstr r 0) = response.body.length := by
          rw [response.header_eq, List.append_assoc]
          exact response.declaredLength_upToLength _
        refine iff_of_true ⟨response.header.length, ?_, ?_⟩ (.inl (List.prefix_append _ _))
        · rw [htext, headerLength, hcontent, if_neg (by omega), hend]
        · rw [htext, hcontent]
          unfold InIntRange
          exact ⟨by omega, .inr ⟨by omega, by omega, by omega⟩⟩
      · obtain ⟨htext, hend⟩ := text_of_part hlines hne hpart hlen
        have hnot : ¬response.header <+: first := fun h ↦ by
          have := h.length_le
          omega
        have hrest : rest ≠ [] := by
          rintro rfl
          simp only [List.flatten_cons, List.flatten_nil, List.append_nil] at htotal
          omega
        rw [htext, or_iff_right hnot]
        simp only [or_iff_right hrest]
        by_cases hupTo : response.upToLength <+: first
        · -- The content length without the end of the header.
          obtain ⟨r, rfl⟩ := hupTo
          have hcontent := response.declaredLength_upToLength r
          have hheader : headerLength (response.upToLength ++ r) = .ok (-1) := by
            rw [headerLength, hcontent, if_neg (by omega), hend]
          rw [hheader, hcontent]
          simp only [Except.ok.injEq, exists_eq_left', List.prefix_append, true_and]
          unfold InIntRange
          omega
        · -- No content length at all.
          have hcontent : declaredLength first = -1 :=
            declaredLength_of_part response.before_lines response.length_line.lf_cr
              (response.prefix_of_not_upToLength hpart hupTo)
          refine iff_of_false ?_ fun h ↦ hupTo h.1
          rintro ⟨header, hheader, -, -, hlt, -⟩
          have hbounds := headerLength_bounds hheader
          rw [hcontent] at hlt
          obtain ⟨next, pieces, rfl⟩ := List.exists_cons_of_ne_nil hrest
          simp only [List.dropLast_cons_cons, List.flatten_cons, List.length_append] at hlt
          omega

/-- `HTTP/1.1 200 OK` with a body of two bytes. -/
def twoByteResponse : LengthResponse where
  before := [text "HTTP/1.1 200 OK"]
  name := text "Content-Length:"
  digits := text "2"
  after := []
  body := text "ab"
  before_lines := by
    intro line hline
    obtain rfl := List.mem_singleton.mp hline
    exact ⟨⟨by decide, by decide, by decide, by decide⟩, by decide⟩
  length_line := ⟨by decide, by decide, by decide, by decide⟩
  after_lines := by simp
  name_eq := by decide
  digits_decimal := List.all_eq_true.mp (by decide)
  digits_ne_nil := by decide
  length_body := by decide

/-- The two pieces the response comes in when it is cut behind its status line. -/
def cutInHeader : List (List UInt8) :=
  [text "HTTP/1.1 200 OK\r\n", text "Content-Length: 2\r\n\r\nab"]

/-- A response without a content length, which ends when the server closes. -/
structure CloseDelimited where
  lines : List (List UInt8)
  body : List UInt8
  header_lines : ∀ line ∈ lines, HeaderLine line ∧
    matchesCommandCaseInsensitive line "Content-length: " = false
  lines_ne_nil : lines ≠ []

namespace CloseDelimited

def header (response : CloseDelimited) : List UInt8 := headerBlock response.lines

def bytes (response : CloseDelimited) : List UInt8 := response.header ++ response.body

variable (response : CloseDelimited)

theorem headerLine : ∀ line ∈ response.lines, HeaderLine line :=
  fun line hline ↦ (response.header_lines line hline).1

theorem bytes_ne_nil : response.bytes ≠ [] := by
  intro h
  have hblock := headerEnd_headerBlock response.headerLine response.lines_ne_nil []
  rw [show headerBlock response.lines = [] from (List.append_eq_nil_iff.mp h).1] at hblock
  cases hblock

theorem header_eq : response.header = (crlfLines response.lines ++ [cr]) ++ [lf] := by
  simp [header, headerBlock]

end CloseDelimited

theorem exists_headerLength (hlf : lf ∈ t) : ∃ header, headerLength t = .ok header := by
  unfold headerLength
  split
  · obtain ⟨i, hi⟩ := exists_lastIdxOf? hlf
    exact ⟨_, by rw [hi]⟩
  · exact ⟨_, rfl⟩

/-- A response without a content length arrives whole in one piece.  In several pieces it
only does if its body has a line that passes for a content length, with a value that the
last piece is still needed for. -/
theorem CloseDelimited.delivered_iff (response : CloseDelimited)
    (hpieces : ∀ piece ∈ pieces, piece ≠ []) (hflatten : pieces.flatten = response.bytes) :
    (deliveredPieces pieces).flatten = pieces.flatten ↔
      InIntRange (declaredLength (cstr (pieces.headD []) 0)) ∧
        (pieces.length = 1 ∨ declaredLength (cstr (pieces.headD []) 0) ≠ -1 ∧
          InIntRange (response.header.length + declaredLength (cstr (pieces.headD []) 0)) ∧
          (pieces.dropLast.flatten.length : ℤ) <
            response.header.length + declaredLength (cstr (pieces.headD []) 0) ∧
          InIntRange response.body.length) := by
  have hlines := response.headerLine
  have hne := response.lines_ne_nil
  have htotal : pieces.flatten.length = response.header.length + response.body.length := by
    rw [hflatten, bytes, List.length_append]
  cases hs : pieces with
  | nil =>
      refine absurd ?_ response.bytes_ne_nil
      rw [← hflatten, hs, List.flatten_nil]
  | cons first rest =>
      have hpre : first <+: response.header ++ response.body :=
        ⟨rest.flatten, by rw [← List.flatten_cons, ← hs, hflatten]; rfl⟩
      have hdrop := length_dropLast_lt (by simp [hs]) hpieces
      rw [hs] at hpieces htotal hdrop
      have hsingle : (first :: rest).length = 1 ↔ rest = [] := by
        simp
      rw [deliveredPieces_flatten_iff hpieces, List.headD_cons, hsingle]
      -- Without a content length the header ends within the first piece.
      have hshort (hcontent : declaredLength (cstr first 0) = -1) {header : ℤ}
          (hheader : headerLength (cstr first 0) = .ok header) (hrest : rest ≠ []) :
          ¬((first :: rest).dropLast.flatten.length : ℤ) <
            header + declaredLength (cstr first 0) := by
        have hbounds := headerLength_bounds hheader
        have hcstr := length_cstr_le first 0
        obtain ⟨next, pieces, rfl⟩ := List.exists_cons_of_ne_nil hrest
        rw [List.dropLast_cons_cons, List.flatten_cons, List.length_append, hcontent]
        omega
      rcases first_piece_cases hpre with ⟨r, rfl⟩ | ⟨hpart, hlen⟩
      · have htext : cstr (response.header ++ r) 0 = response.header ++ cstr r 0 :=
          (text_of_whole hlines hne r).1
        have hend : headerEnd (response.header ++ cstr r 0) = some response.header.length :=
          (text_of_whole hlines hne r).2
        have hlf : lf ∈ cstr (response.header ++ r) 0 := by
          rw [htext, response.header_eq]
          simp
        obtain ⟨header, hheader⟩ := exists_headerLength hlf
        simp only [hheader, Except.ok.injEq, exists_eq_left']
        refine and_congr_right fun hrange ↦ or_congr_right' fun hrest ↦ ?_
        by_cases hcontent : declaredLength (cstr (response.header ++ r) 0) = -1
        · exact iff_of_false (fun h ↦ hshort hcontent hheader hrest h.2.1) fun h ↦ h.1 hcontent
        · have hlength : header = response.header.length := by
            rw [htext] at hcontent hheader
            rw [headerLength, if_neg hcontent, hend, Except.ok.injEq] at hheader
            exact hheader.symm
          rw [hlength, htotal]
          simp only [ne_eq, hcontent, not_false_eq_true, true_and]
          rw [show ((response.header.length + response.body.length : ℕ) : ℤ) -
            response.header.length = response.body.length by omega]
      · obtain ⟨htext, hend⟩ := text_of_part hlines hne hpart hlen
        have hrest : rest ≠ [] := by
          rintro rfl
          simp only [List.flatten_cons, List.flatten_nil, List.append_nil] at htotal hlen
          omega
        have hlfcr : lf ∉ [cr] := by decide
        have hcontent : declaredLength (cstr first 0) = -1 := by
          rw [htext]
          apply declaredLength_of_part response.header_lines hlfcr
          rw [response.header_eq] at hpart hlen
          apply List.prefix_of_prefix_length_le hpart (List.prefix_append _ _)
          rw [List.length_append, List.length_singleton] at hlen
          omega
        apply iff_of_false
        · rintro ⟨header, hheader, -, h | ⟨-, hlt, -⟩⟩
          · exact hrest h
          · exact hshort hcontent hheader hrest hlt
        · rintro ⟨-, h | h⟩
          · exact hrest h
          · exact h.1 hcontent

/-- Four bytes until the server closes. -/
def fourByteResponse : CloseDelimited where
  lines := [text "HTTP/1.1 200 OK"]
  body := text "abcd"
  header_lines := by
    intro line hline
    obtain rfl := List.mem_singleton.mp hline
    exact ⟨⟨by decide, by decide, by decide, by decide⟩, by decide⟩
  lines_ne_nil := by decide

def cutInBody : List (List UInt8) := [text "HTTP/1.1 200 OK\r\n\r\nab", text "cd"]

end HttpProxy
