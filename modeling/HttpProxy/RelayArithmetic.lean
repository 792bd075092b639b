import HttpProxy.HeaderLengths
import HttpProxy.NullObjects
import HttpProxy.RelayWhole

/-!
# Counting a response

The relay beside one that counts in ℤ.  The two have the same runs exactly if nothing that the
relay stores or adds up leaves the range of an `int`.
-/

namespace HttpProxy

open CString Interaction Protocol

variable {fuel : ℕ} {socket : Socket} {cacheFile : Option FileHandle} {grant granted : Grant}
  {opened : Option FileHandle} {job : Job} {hostname first : List UInt8} {s : RelayState}
  {pieces rest : List (List UInt8)} {serverSocketFd contentLength contentRead header : ℤ}

/-! ## The unbounded relay -/

/-- `relayLoop` with a counter in ℤ. -/
def relayLoopUnbounded : ℕ → ℤ → Socket → Option FileHandle → ℤ → ℤ → Worker Unit
  | 0, _, _, _, _, _ => .halt .outOfFuel
  | fuel + 1, serverSocketFd, clientSocket, cacheFile, contentLength, contentRead =>
      if contentLength > contentRead then do
        let received ← recv (.server serverSocketFd) jobRequestBufferSize false
        let result ← cacheAndSend clientSocket cacheFile (received.bytes) (received.length)
        if result = .fail then .ret ()
        else
          relayLoopUnbounded fuel serverSocketFd clientSocket cacheFile contentLength
            (contentRead + received.length)
      else .ret ()

/-- `relayRest` with a sum in ℤ. -/
def relayRestUnbounded (fuel : ℕ) (serverSocketFd : ℤ) (clientSocket : Socket)
    (cacheFile : Option FileHandle) (lengths : ℤ × ℤ) (bytesRead : ℤ) : Worker Unit :=
  if bytesRead < lengths.1 + lengths.2 then
    relayLoopUnbounded fuel serverSocketFd clientSocket cacheFile lengths.2
      (bytesRead - lengths.1)
  else .ret ()

/-- The two lengths of a text, with the declared one in ℤ. -/
def unboundedLengths (text : List UInt8) : Except Fault (ℤ × ℤ) :=
  (headerLength text).map (·, declaredLength text)

/-- `relayResponse` with all of its arithmetic in ℤ. -/
def relayResponseUnbounded (fuel : ℕ) (job : Job) (grant : Grant)
    (cacheFile : Option FileHandle) (serverSocketFd : ℤ) (hostname : List UInt8) :
    Worker Status := do
  let received ← recv (.server serverSocketFd) jobRequestBufferSize false
  let lengths ← Prog.lift (unboundedLengths (cstr (responseBuffer (received.bytes)) 0))
  let result ← cacheAndSend (.client job.clientSocketFd) cacheFile (received.bytes)
    (received.length)
  if result = .fail then .ret .fail
  else do
    relayRestUnbounded fuel serverSocketFd (.client job.clientSocketFd) cacheFile lengths
      received.length
    close serverSocketFd
    finishRelay fuel job grant cacheFile hostname

/-- The server's pieces come one after the other and then its end; the client and everything
else are left open. -/
def streaming : Protocol Resp RelayState where
  requires _ _ := True
  answers s op answer :=
    match op, answer with
    | .recv (.server _) size _, received => received.bytes = s.chunk.take size ∧
        received.length = (s.chunk.take size).length
    | _, _ => True
  next := RelayState.next

/-! ## No addition leaves the range -/

/-- The counter of the loop stays in range over the pieces that the loop takes. -/
def CountsInRange (contentLength contentRead : ℤ) (pieces : List (List UInt8)) : Prop :=
  ∀ n < pieces.length, contentRead + (pieces.take n).flatten.length < contentLength →
    InIntRange (contentRead + (pieces.take (n + 1)).flatten.length)

theorem countsInRange_nil : CountsInRange contentLength contentRead [] := by
  intro n hn
  cases hn

theorem countsInRange_cons {piece : List UInt8} (hmore : contentRead < contentLength) :
    CountsInRange contentLength contentRead (piece :: pieces) ↔
      InIntRange (contentRead + piece.length) ∧
        CountsInRange contentLength (contentRead + piece.length) pieces := by
  constructor
  · intro h
    refine ⟨by simpa using h 0 (by simp) (by simpa using hmore), fun n hn hlt ↦ ?_⟩
    have hnext := h (n + 1) (by simpa using hn)
    simp only [List.take_succ_cons, List.flatten_cons, List.length_append, Int.natCast_add,
      ← Int.add_assoc] at hnext
    exact hnext hlt
  · rintro ⟨hfirst, hrest⟩ n hn hlt
    cases n with
    | zero => simpa using hfirst
    | succ n =>
        simp only [List.take_succ_cons, List.flatten_cons, List.length_append, Int.natCast_add,
          ← Int.add_assoc] at hlt ⊢
        exact hrest n (by simpa using hn) hlt

/-- The call takes nothing from the server's stream. -/
def TakesNoPiece (op : Op) : Prop := ∀ fd size dontWait, op ≠ .recv (.server fd) size dontWait

theorem cacheAndSend_takesNoPiece (buffer : List UInt8) (length : ℤ) :
    (cacheAndSend socket cacheFile buffer length).Calls TakesNoPiece := by
  have hsend : (trySendInChunks socket buffer length).Calls TakesNoPiece := by
    apply (trySendInChunks_calls _ _ _).mono
    rintro op (rfl | ⟨bytes, rfl⟩) <;> simp [TakesNoPiece]
  cases cacheFile with
  | none => exact hsend
  | some file =>
      simp only [cacheAndSend]
      split
      · trivial
      · exact ⟨by simp [TakesNoPiece], fun _ ↦ hsend⟩

theorem keeps_cacheAndSend_pieces (buffer : List UInt8) (length : ℤ) :
    streaming.Keeps (cacheAndSend socket cacheFile buffer length)
      (fun s' _ ↦ s'.pieces = s.pieces) s := by
  apply keeps_of_calls RelayState.pieces (cacheAndSend_takesNoPiece buffer length)
  · exact fun _ _ _ ↦ trivial
  · intro s op hop r
    cases op with
    | recv socket size dontWait =>
        cases socket with
        | client fd => rfl
        | server fd => exact absurd rfl (hop fd size dontWait)
    | send socket bytes =>
        cases r with
        | none => rfl
        | some n => cases socket <;> rfl
    | fopen path mode => cases mode <;> rfl
    | _ => rfl

theorem received_streaming {received : RecvResult jobRequestBufferSize}
    (h : streaming.answers s (.recv (.server serverSocketFd) jobRequestBufferSize false) received)
    (hpieces : ∀ piece ∈ s.pieces, piece.length ≤ jobRequestBufferSize) :
    received.bytes = s.chunk ∧ received.length = s.chunk.length := by
  have hall : s.chunk.take jobRequestBufferSize = s.chunk := by
    apply List.take_of_length_le
    unfold RelayState.chunk
    cases hs : s.pieces with
    | nil => exact Nat.zero_le _
    | cons piece pieces => exact hpieces piece (by simp [hs])
  simp only [streaming, hall] at h
  exact h

theorem sameRuns_relayLoop (hread : InIntRange contentRead)
    (hcounts : CountsInRange contentLength contentRead s.pieces)
    (hpieces : ∀ piece ∈ s.pieces, piece.length ≤ jobRequestBufferSize) :
    streaming.SameRuns s
      (relayLoop fuel serverSocketFd socket cacheFile contentLength contentRead)
      (relayLoopUnbounded fuel serverSocketFd socket cacheFile contentLength contentRead) := by
  induction fuel generalizing s contentRead with
  | zero => exact .refl _
  | succ fuel ih =>
      by_cases hmore : contentRead < contentLength
      · have hnext : InIntRange (contentRead + s.chunk.length) ∧
            CountsInRange contentLength (contentRead + s.chunk.length) s.pieces.tail := by
          unfold RelayState.chunk
          cases hs : s.pieces with
          | nil => exact ⟨by simpa using hread, countsInRange_nil⟩
          | cons piece pieces =>
              rw [hs] at hcounts
              exact (countsInRange_cons hmore).mp hcounts
        simp only [relayLoop, relayLoopUnbounded, if_pos (show contentLength > contentRead from
          hmore), recv_bind]
        apply SameRuns.call
        intro received hreceived
        obtain ⟨-, hlength⟩ := received_streaming hreceived hpieces
        rw [hlength, if_neg (not_not.mpr hnext.1)]
        apply SameRuns.bind (keeps_cacheAndSend_pieces _ _)
        intro s' status htail
        have htail : s'.pieces = s.pieces.tail := htail
        split
        · exact .refl _
        · apply ih hnext.1
          · rw [htail]
            exact hnext.2
          · intro piece hpiece
            rw [htail] at hpiece
            exact hpieces piece (List.mem_of_mem_tail hpiece)
      · have hend : ¬contentLength > contentRead := hmore
        simp only [relayLoop, relayLoopUnbounded, if_neg hend]
        exact .refl _

theorem unboundedLengths_of_parse {lengths : ℤ × ℤ}
    (hparse : parseResponseHeader (responseBuffer first) = .ok lengths) :
    unboundedLengths (cstr (responseBuffer first) 0) = .ok lengths := by
  rw [parseResponseHeader_eq rfl] at hparse
  split at hparse
  · cases hparse
  · exact hparse

/-- The sum of the lengths is an `int`, and so is the counter as far as the loop goes. -/
structure SumsInRange (lengths : ℤ × ℤ) (pieces : List (List UInt8)) : Prop where
  total : InIntRange (lengths.1 + lengths.2)
  counts : CountsInRange lengths.2 ((pieces.headD []).length - lengths.1) pieces.tail

theorem inIntRange_firstCount {lengths : ℤ × ℤ} (hlength : first.length ≤ jobRequestBufferSize)
    (hparse : parseResponseHeader (responseBuffer first) = .ok lengths) :
    InIntRange (first.length - lengths.1) := by
  obtain ⟨hheader, -, -⟩ := parseResponseHeader_responseBuffer_iff.mp hparse
  have hbounds := headerLength_bounds hheader
  have hcstr := length_cstr_le first 0
  unfold InIntRange
  unfold jobRequestBufferSize at hlength
  omega

theorem sameRuns_relayRest {lengths : ℤ × ℤ} (hs : s.pieces = rest)
    (hsums : SumsInRange lengths (first :: rest))
    (hfirst : InIntRange (first.length - lengths.1))
    (hpieces : ∀ piece ∈ rest, piece.length ≤ jobRequestBufferSize) :
    streaming.SameRuns s
      (relayRest fuel serverSocketFd socket cacheFile lengths first.length)
      (relayRestUnbounded fuel serverSocketFd socket cacheFile lengths first.length) := by
  subst hs
  unfold relayRest relayRestUnbounded
  rw [if_neg (not_not.mpr hsums.total)]
  split
  · exact sameRuns_relayLoop hfirst hsums.counts hpieces
  · exact .refl _

theorem sameRuns_relayResponse {lengths : ℤ × ℤ} (hs : s.pieces = first :: rest)
    (hparse : parseResponseHeader (responseBuffer first) = .ok lengths)
    (hsums : SumsInRange lengths (first :: rest))
    (hpieces : ∀ piece ∈ first :: rest, piece.length ≤ jobRequestBufferSize) :
    streaming.SameRuns s (relayResponse fuel job grant cacheFile serverSocketFd hostname)
      (relayResponseUnbounded fuel job grant cacheFile serverSocketFd hostname) := by
  have hchunk : s.chunk = first := by rw [RelayState.chunk, hs]; rfl
  simp only [relayResponse, relayResponseUnbounded, recv_bind]
  apply SameRuns.call
  intro received hreceived
  obtain ⟨hbytes, hlength⟩ := received_streaming hreceived (by rw [hs]; exact hpieces)
  rw [hbytes, hlength, hchunk, hparse, unboundedLengths_of_parse hparse]
  simp only [Prog.lift_ok, Prog.ret_bind]
  apply SameRuns.bind (keeps_cacheAndSend_pieces _ _)
  intro s' status htail
  have hrest : s'.pieces = rest := htail.trans (congrArg List.tail hs)
  split
  · exact .refl _
  · apply SameRuns.bind_left
    exact sameRuns_relayRest hrest hsums
      (inIntRange_firstCount (hpieces first (by simp)) hparse)
      fun piece hpiece ↦ hpieces piece (List.mem_cons_of_mem _ hpiece)

/-! ## An addition that leaves the range -/

theorem countsInRange_of_le (h : contentLength ≤ contentRead) :
    CountsInRange contentLength contentRead pieces := by
  intro n hn hlt
  omega

theorem keeps_relayLoop_overflow {fd : ℤ} (hcounts : ¬CountsInRange contentLength contentRead
      s.pieces) (hfuel : s.pieces.length < fuel)
    (hpieces : ∀ piece ∈ s.pieces, piece.length ≤ jobRequestBufferSize) :
    (relaying granted opened true).Keeps
      (relayLoop fuel serverSocketFd (.client fd) cacheFile contentLength contentRead)
      (fun _ out ↦ out = .error .signedOverflow) s := by
  induction fuel generalizing s contentRead with
  | zero => omega
  | succ fuel ih =>
      have hmore : contentRead < contentLength := by
        by_contra hle
        exact hcounts (countsInRange_of_le (Int.not_lt.mp hle))
      cases hs : s.pieces with
      | nil =>
          rw [hs] at hcounts
          exact absurd countsInRange_nil hcounts
      | cons piece pieces =>
          rw [hs, countsInRange_cons hmore] at hcounts
          have hchunk : s.chunk = piece := by rw [RelayState.chunk, hs]; rfl
          simp only [relayLoop, if_pos (show contentLength > contentRead from hmore), recv_bind,
            keeps_call]
          refine ⟨trivial, fun received hreceived ↦ ?_⟩
          obtain ⟨hbytes, hlength⟩ := received_kind hreceived hpieces
          rw [hbytes, hlength, hchunk]
          split
          next => rfl
          next hrange =>
            apply (keeps_cacheAndSend_kind cacheFile piece).bind
            · rintro s' status ⟨hstatus, -, htail⟩
              obtain rfl := Except.ok.inj hstatus
              have hs' : s'.pieces = pieces := htail.trans (congrArg List.tail hs)
              rw [if_neg (by decide)]
              rw [hs] at hfuel hpieces
              apply ih
              · rw [hs']
                exact fun h ↦ hcounts ⟨not_not.mp hrange, h⟩
              · rw [hs']
                exact Nat.lt_of_succ_lt_succ hfuel
              · intro piece hpiece
                rw [hs'] at hpiece
                exact hpieces piece (List.mem_cons_of_mem _ hpiece)
            · rintro s' fault ⟨hfault, -⟩
              cases hfault

theorem keeps_relayResponse_overflow {lengths : ℤ × ℤ} (hs : s.pieces = first :: rest)
    (hparse : parseResponseHeader (responseBuffer first) = .ok lengths)
    (hsums : ¬SumsInRange lengths (first :: rest)) (hfuel : rest.length < fuel)
    (hpieces : ∀ piece ∈ first :: rest, piece.length ≤ jobRequestBufferSize) :
    (relaying granted opened true).Keeps
      (relayResponse fuel job grant cacheFile serverSocketFd hostname)
      (fun _ out ↦ out = .error .signedOverflow) s := by
  have hchunk : s.chunk = first := by rw [RelayState.chunk, hs]; rfl
  simp only [relayResponse, recv_bind, keeps_call]
  refine ⟨trivial, fun received hreceived ↦ ?_⟩
  obtain ⟨hbytes, hlength⟩ := received_kind hreceived (by rw [hs]; exact hpieces)
  rw [hbytes, hlength, hchunk, hparse]
  simp only [Prog.lift_ok, Prog.ret_bind]
  apply (keeps_cacheAndSend_kind cacheFile first).bind
  · rintro s' status ⟨hstatus, -, htail⟩
    obtain rfl := Except.ok.inj hstatus
    have hs' : s'.pieces = rest := htail.trans (congrArg List.tail hs)
    rw [if_neg (by decide)]
    have hrest : (relaying granted opened true).Keeps
        (relayRest fuel serverSocketFd (.client job.clientSocketFd) cacheFile lengths first.length)
        (fun _ out ↦ out = .error .signedOverflow) s' := by
      unfold relayRest
      split
      next => rfl
      next htotal =>
        have hcounts : ¬CountsInRange lengths.2 (first.length - lengths.1) rest :=
          fun h ↦ hsums ⟨not_not.mp htotal, h⟩
        split
        · apply keeps_relayLoop_overflow
          · rwa [hs']
          · rwa [hs']
          · intro piece hpiece
            rw [hs'] at hpiece
            exact hpieces piece (List.mem_cons_of_mem _ hpiece)
        · exact absurd (countsInRange_of_le (by omega)) hcounts
    apply hrest.bind
    · rintro s'' _ ⟨⟩
    · intro s'' fault hfault
      rw [Except.error.inj hfault]
  · rintro s' fault ⟨hfault, -⟩
    cases hfault

theorem streaming_of_kind {op : Op} {r : Resp op}
    (h : (relaying granted opened true).answers s op r) : streaming.answers s op r := by
  cases op with
  | recv socket size dontWait =>
      cases socket with
      | client fd => trivial
      | server fd =>
          simp only [relaying, RelayAnswers] at h
          simp only [streaming, RelayState.chunk]
          cases hs : s.pieces with
          | nil =>
              rw [hs] at h
              exact ⟨by simpa using h.1, by simpa using h.2 trivial⟩
          | cons piece pieces =>
              rw [hs] at h
              exact h
  | _ => trivial

/-! ## The relay as a whole -/

/-- The content length is stored as `n`, no run of the relay stops on an overflow, and the relay
has the runs of the unbounded one. -/
structure CountsExactly (pieces : List (List UInt8)) (n : ℕ) : Prop where
  stored : ∃ header, parseResponseHeader (responseBuffer (pieces.headD [])) = .ok (header, (n : ℤ))
  noOverflow : ∀ (fuel : ℕ) (job : Job) (grant : Grant) (cacheFile : Option FileHandle)
    (serverSocketFd : ℤ) (hostname : List UInt8) (s s' : RelayState) (tr : Trace),
    s.pieces = pieces → ¬streaming.Run s
      (relayResponse fuel job grant cacheFile serverSocketFd hostname) tr s'
      (.error .signedOverflow)
  sameRuns : ∀ (fuel : ℕ) (job : Job) (grant : Grant) (cacheFile : Option FileHandle)
    (serverSocketFd : ℤ) (hostname : List UInt8) (s : RelayState),
    s.pieces = pieces → streaming.SameRuns s
      (relayResponse fuel job grant cacheFile serverSocketFd hostname)
      (relayResponseUnbounded fuel job grant cacheFile serverSocketFd hostname)

theorem relayLoopUnbounded_halts :
    (relayLoopUnbounded fuel serverSocketFd socket cacheFile contentLength contentRead).Halts
      (· ≠ .signedOverflow) := by
  induction fuel generalizing contentRead with
  | zero => exact fun h ↦ by cases h
  | succ fuel ih =>
      simp only [relayLoopUnbounded, recv_bind]
      split
      · rw [Prog.halts_call]
        intro received
        apply ((cacheAndSend_halts _ _).mono fun _ ↦ PlainFault.ne_signedOverflow).bind
        intro result
        split
        · trivial
        · exact ih
      · trivial

theorem finishRelay_ne_signedOverflow :
    (finishRelay fuel job grant cacheFile hostname).Halts (· ≠ .signedOverflow) := by
  by_cases hfile : grant.action = .shouldWrite → cacheFile ≠ none
  · exact (finishRelay_halts hfile).mono fun _ ↦ PlainFault.ne_signedOverflow
  · push Not at hfile
    obtain ⟨hwrite, rfl⟩ := hfile
    cases grant with
    | shouldWrite record =>
        rw [finishRelay_none]
        exact fun h ↦ by cases h
    | unavailable record => cases hwrite
    | shouldRead record => cases hwrite

theorem relayResponseUnbounded_halts :
    (relayResponseUnbounded fuel job grant cacheFile serverSocketFd hostname).Halts
      (· ≠ .signedOverflow) := by
  simp only [relayResponseUnbounded, recv_bind, Prog.halts_call]
  intro received
  cases hlengths : unboundedLengths (cstr (responseBuffer received.bytes) 0) with
  | error fault =>
      rintro rfl
      unfold unboundedLengths headerLength at hlengths
      split at hlengths
      · cases hlast : lastIdxOf? (cstr (responseBuffer received.bytes) 0) lf with
        | none =>
            rw [hlast] at hlengths
            cases hlengths
        | some i =>
            rw [hlast] at hlengths
            cases hlengths
      · cases hlengths
  | ok lengths =>
      apply ((cacheAndSend_halts _ _).mono fun _ ↦ PlainFault.ne_signedOverflow).bind
      intro result
      split
      · trivial
      · have hrest : (relayRestUnbounded fuel serverSocketFd (.client job.clientSocketFd) cacheFile
            lengths received.length).Halts (· ≠ .signedOverflow) := by
          unfold relayRestUnbounded
          split
          · exact relayLoopUnbounded_halts
          · trivial
        apply hrest.bind
        exact fun _ _ ↦ finishRelay_ne_signedOverflow

theorem countsExactly_iff_sums {n : ℕ} {header : ℤ}
    (hparse : parseResponseHeader (responseBuffer first) = .ok (header, (n : ℤ)))
    (hpieces : ∀ piece ∈ first :: rest, piece.length ≤ jobRequestBufferSize) :
    CountsExactly (first :: rest) n ↔ SumsInRange (header, (n : ℤ)) (first :: rest) := by
  constructor
  · intro h
    by_contra hsums
    have hkeeps : (relaying (.unavailable none) none true).Keeps
        (relayResponse (rest.length + 1) (jobConstruct 3) (.unavailable none) none 4 [])
        (fun _ out ↦ out = .error .signedOverflow) (.start (first :: rest) ⟨[], 0⟩) :=
      keeps_relayResponse_overflow rfl hparse hsums (Nat.lt_succ_self _) hpieces
    obtain ⟨tr, s', out, hrun⟩ := exists_run (relaying_total true)
      (relayResponse (rest.length + 1) (jobConstruct 3) (.unavailable none) none 4 [])
      (.start (first :: rest) ⟨[], 0⟩ : RelayState)
    obtain rfl := hrun.keeps hkeeps
    have hfree := hrun.weaken (fun _ _ _ ↦ streaming_of_kind) rfl
    exact h.noOverflow _ _ _ _ _ _ _ _ _ (show (RelayState.start _ _).pieces = _ from rfl) hfree
  · intro hsums
    refine ⟨⟨header, hparse⟩, ?_, ?_⟩
    · intro fuel job grant cacheFile serverSocketFd hostname s s' tr hs hrun
      have hsame : streaming.SameRuns s
          (relayResponse fuel job grant cacheFile serverSocketFd hostname)
          (relayResponseUnbounded fuel job grant cacheFile serverSocketFd hostname) :=
        sameRuns_relayResponse hs hparse hsums hpieces
      exact ((hsame _ _ _).mp hrun).halts relayResponseUnbounded_halts rfl
    · intro fuel job grant cacheFile serverSocketFd hostname s hs
      exact sameRuns_relayResponse hs hparse hsums hpieces

/-! ## Responses that declare a length -/

/-- The header length that the first piece shows: none of it counts until all of it is there. -/
def seenHeader (lines : List (List UInt8)) (first : List UInt8) : ℤ :=
  if headerBlock lines <+: first then (headerBlock lines).length else -1

section Declared

variable {lines : List (List UInt8)} {line : List UInt8}

theorem prefix_of_not_longer {a t b : List UInt8} {c : UInt8} (h : t <+: a ++ c :: b)
    (hnot : ¬a ++ [c] <+: t) : t <+: a := by
  have hsplit : a ++ c :: b = (a ++ [c]) ++ b := by simp
  rcases le_or_gt t.length a.length with hle | hlt
  · exact List.prefix_of_prefix_length_le h (List.prefix_append _ _) hle
  · rw [hsplit] at h
    refine absurd (List.prefix_of_prefix_length_le (List.prefix_append _ _) h ?_) hnot
    rw [List.length_append, List.length_singleton]
    exact hlt

theorem declaredLength_of_not_upToDeclaration (h : ∀ line ∈ lines, HeaderLine line)
    (hfirst : lines.find? declaresLength = some line) (hpart : first <+: headerBlock lines)
    (hnot : ¬upToDeclaration lines <+: first) : declaredLength first = -1 := by
  obtain ⟨hdeclares, before, after, rfl, hbefore⟩ := List.find?_eq_some_iff_append.mp hfirst
  have hskip : ∀ l ∈ before, HeaderLine l ∧
      matchesCommandCaseInsensitive l "Content-length: " = false := by
    intro l hl
    have hother := hbefore l hl
    rw [Bool.not_eq_true'] at hother
    exact ⟨h l (by simp [hl]), hother⟩
  have hline : HeaderLine line := h line (by simp)
  rw [headerBlock_eq_declaration] at hpart
  rw [upToDeclaration_eq hdeclares hbefore] at hpart hnot
  have hsplit (rest : List UInt8) : crlfLines before ++ (line ++ [cr, lf]) ++ rest =
      (crlfLines before ++ (line ++ [cr])) ++ lf :: rest := by
    simp
  apply declaredLength_of_part hskip hline.lf_cr
  rw [hsplit] at hpart
  apply prefix_of_not_longer hpart
  rwa [← hsplit, List.append_nil]

/-- What the first piece of a response shows of a declared length. -/
theorem parseResponseHeader_firstPiece_iff {body : List UInt8}
    (h : ∀ line ∈ lines, HeaderLine line) (hfirst : lines.find? declaresLength = some line)
    (hdigits : ∀ c ∈ lengthValue line, isDigit c = true) (hne : lengthValue line ≠ [])
    (hfront : first <+: headerBlock lines ++ body) (header : ℤ) :
    parseResponseHeader (responseBuffer first) =
        .ok (header, (digitsValue (lengthValue line) : ℤ)) ↔
      upToDeclaration lines <+: first ∧ digitsValue (lengthValue line) ≤ 2147483647 ∧
        header = seenHeader lines first := by
  have hlines : lines ≠ [] := by
    rintro rfl
    simp at hfirst
  rw [parseResponseHeader_responseBuffer_iff]
  generalize hvalue : digitsValue (lengthValue line) = n
  have hrange : InIntRange (n : ℤ) ↔ n ≤ 2147483647 := by
    unfold InIntRange
    omega
  rcases first_piece_cases hfront with ⟨r, rfl⟩ | ⟨hpart, hlength⟩
  · have hdeclared := declaredLength_headerBlock h hfirst hdigits hne (cstr r 0)
    have hend := headerEnd_headerBlock h hlines (cstr r 0)
    have hupTo : upToDeclaration lines <+: headerBlock lines ++ r := by
      rw [headerBlock_eq_declaration, List.append_assoc]
      exact List.prefix_append _ _
    rw [hvalue] at hdeclared
    rw [cstr_headerBlock h, hdeclared, headerLength, hdeclared, if_neg (by omega), hend, seenHeader,
      if_pos (List.prefix_append _ _)]
    simp only [Except.ok.injEq, hupTo, true_and, hrange, and_true]
    tauto
  · obtain ⟨htext, hend⟩ := text_of_part h hlines hpart hlength
    have hseen : seenHeader lines first = -1 :=
      if_neg fun hwhole ↦ absurd hwhole.length_le (by omega)
    rw [htext, hseen]
    by_cases hupTo : upToDeclaration lines <+: first
    · obtain ⟨r, rfl⟩ := hupTo
      have hdeclared := declaredLength_upToDeclaration h hfirst hdigits hne r
      rw [hvalue] at hdeclared
      rw [hdeclared, headerLength, hdeclared, if_neg (by omega), hend]
      simp only [Except.ok.injEq, List.prefix_append, true_and, hrange, and_true]
      tauto
    · have hdeclared := declaredLength_of_not_upToDeclaration h hfirst hpart hupTo
      constructor
      · rintro ⟨-, -, hn⟩
        omega
      · rintro ⟨hfront, -⟩
        exact absurd hfront hupTo

/-- The relay of a response that declares a length counts exactly if and only if the first piece
holds the line that declares it, the length is an `int`, and so are its sum with the header length
that the first piece shows and the counter at each step. -/
theorem countsExactly_iff {body : List UInt8} (h : ∀ line ∈ lines, HeaderLine line)
    (hfirst : lines.find? declaresLength = some line)
    (hdigits : ∀ c ∈ lengthValue line, isDigit c = true) (hne : lengthValue line ≠ [])
    (hpieces : ∀ piece ∈ pieces, piece.length ≤ jobRequestBufferSize)
    (hflatten : pieces.flatten = headerBlock lines ++ body) :
    CountsExactly pieces (digitsValue (lengthValue line)) ↔
      upToDeclaration lines <+: pieces.headD [] ∧
        digitsValue (lengthValue line) ≤ 2147483647 ∧
        SumsInRange (seenHeader lines (pieces.headD []), (digitsValue (lengthValue line) : ℤ))
          pieces := by
  have hblock : headerBlock lines ≠ [] := by
    rw [headerBlock]
    exact List.append_ne_nil_of_right_ne_nil _ (by simp)
  cases hs : pieces with
  | nil =>
      rw [hs] at hflatten
      exact absurd (List.append_eq_nil_iff.mp hflatten.symm).1 hblock
  | cons first rest =>
      rw [hs] at hpieces hflatten
      have hfront : first <+: headerBlock lines ++ body :=
        ⟨rest.flatten, hflatten⟩
      have hparse := parseResponseHeader_firstPiece_iff h hfirst hdigits hne hfront
      rw [List.headD_cons]
      constructor
      · intro hcounts
        obtain ⟨header, hstored⟩ := hcounts.stored
        obtain ⟨hupTo, hbound, rfl⟩ := (hparse header).mp hstored
        exact ⟨hupTo, hbound, (countsExactly_iff_sums hstored hpieces).mp hcounts⟩
      · rintro ⟨hupTo, hbound, hsums⟩
        have hstored := (hparse _).mpr ⟨hupTo, hbound, rfl⟩
        exact (countsExactly_iff_sums hstored hpieces).mpr hsums

/-- A response of two bytes that comes in two pieces, the second one a byte of the body. -/
theorem countsExactly_iff_twoBytes :
    CountsExactly [twoByteResponse.header ++ text "a", text "b"] 2 ↔
      upToDeclaration twoByteResponse.lines <+: twoByteResponse.header ++ text "a" ∧
        2 ≤ 2147483647 ∧
        SumsInRange (seenHeader twoByteResponse.lines (twoByteResponse.header ++ text "a"), 2)
          [twoByteResponse.header ++ text "a", text "b"] := by
  have hfirst : twoByteResponse.lines.find? declaresLength = some (text "Content-Length: 2") := by
    decide
  have hvalue : lengthValue (text "Content-Length: 2") = [50] := by decide
  have hdigits : ∀ c ∈ lengthValue (text "Content-Length: 2"), isDigit c = true := by
    rw [hvalue]
    intro c hc
    rw [List.mem_singleton.mp hc]
    rfl
  have hne : lengthValue (text "Content-Length: 2") ≠ [] := by
    rw [hvalue]
    exact List.cons_ne_nil _ _
  have hpieces : ∀ piece ∈ [twoByteResponse.header ++ text "a", text "b"],
      piece.length ≤ jobRequestBufferSize := by
    decide
  exact countsExactly_iff twoByteResponse.lines_headerLine hfirst hdigits hne hpieces rfl

end Declared

/-- A length that is no `int`, and one whose sum with the header length is none. -/
theorem largeLength_not_counted :
    ¬CountsExactly [text "HTTP/1.1 200 OK\r\nContent-Length: 2147483648\r\n\r\n"] 2147483648 ∧
      ¬CountsExactly [text "HTTP/1.1 200 OK\r\nContent-Length: 2147483647\r\n\r\n"]
        2147483647 := by
  constructor
  · intro h
    obtain ⟨header, hstored⟩ := h.stored
    have hrange : InIntRange (2147483648 : ℕ) :=
      (parseResponseHeader_responseBuffer_iff.mp hstored).2.1
    revert hrange
    decide
  · intro h
    have hparse : parseResponseHeader (responseBuffer
        (text "HTTP/1.1 200 OK\r\nContent-Length: 2147483647\r\n\r\n")) =
          .ok (47, (2147483647 : ℕ)) :=
      parseResponseHeader_responseBuffer_iff.mpr ⟨rfl, by decide, rfl⟩
    have htotal := ((countsExactly_iff_sums hparse (by decide)).mp h).total
    revert htotal
    decide

end HttpProxy
