import HttpProxy.ResponseText
import HttpProxy.Traces

/-!
# Relaying a response

The surroundings of one request that is fetched from a server: the pieces the server's
stream comes in, the file that is cached to, and what has reached the client.  The relay
takes the pieces one after the other until the content length has been read, so what it
delivers is a function of the pieces.
-/

namespace HttpProxy

open CString Interaction Protocol

/-- A file and the position in it. -/
structure OpenFile where
  content : List UInt8
  position : ℕ

def OpenFile.read (file : OpenFile) (size : ℕ) : List UInt8 :=
  (file.content.drop file.position).take size

def OpenFile.write (file : OpenFile) (bytes : List UInt8) : OpenFile where
  content := file.content.take file.position ++ bytes ++
    file.content.drop (file.position + bytes.length)
  position := file.position + bytes.length

def OpenFile.seek (file : OpenFile) : Whence → ℤ → OpenFile
  | .start, offset => { file with position := offset.toNat }
  | .current, offset => { file with position := (file.position + offset).toNat }

/-- The surroundings of a fetch: the pieces that `recv` has yet to deliver, the bytes that
reached the client, the bytes passed to `fwrite`, whether the server socket has been
closed, and the cache file. -/
structure RelayState where
  pieces : List (List UInt8)
  toClient : List UInt8
  toFile : List UInt8
  serverClosed : Bool
  file : OpenFile

/-- The answers.  The cache answers `grant` and an open `opened`; the server delivers its
pieces and then `recv` returns 0, or -1 if the surroundings are not kind.  Kind
surroundings take every byte that is sent. -/
def RelayAnswers (grant : Grant) (opened : Option FileHandle) (kind : Bool) (s : RelayState) :
    (op : Op) → Resp op → Prop
  | .cacheRecordGetOrCreate _, answer => answer = grant
  | .fopen _ _, answer => answer = opened
  | .connect _ _, connected => kind = true → connected = true
  | .peek _, received => kind = true → received.length ≠ 0
  | .send _ bytes, sent => kind = true → bytes ≠ [] → sent ≠ none
  | .recv (.server _) size _, received =>
      match s.pieces with
      | [] => received.bytes = [] ∧ (kind = true → received.length = 0)
      | piece :: _ => received.bytes = piece.take size ∧
          received.length = (piece.take size).length
  | .fread _ size, bytes => bytes.val = s.file.read size
  | _, _ => True

def RelayState.reach (s : RelayState) : Socket → List UInt8 → RelayState
  | .client _, bytes => { s with toClient := s.toClient ++ bytes }
  | .server _, _ => s

@[simp] theorem RelayState.reach_nil (s : RelayState) (socket : Socket) :
    s.reach socket [] = s := by
  cases socket <;> simp [reach]

@[simp] theorem RelayState.reach_reach (s : RelayState) (socket : Socket)
    (bytes bytes' : List UInt8) :
    (s.reach socket bytes).reach socket bytes' = s.reach socket (bytes ++ bytes') := by
  cases socket <;> simp [reach]

def RelayState.next (s : RelayState) : (op : Op) → Resp op → RelayState
  | .recv (.server _) _ _, _ => { s with pieces := s.pieces.tail }
  | .send socket bytes, some n => s.reach socket (bytes.take n.val)
  | .close _, _ => { s with serverClosed := true }
  | .fwrite _ bytes, _ => { s with toFile := s.toFile ++ bytes, file := s.file.write bytes }
  | .fopen _ .write, _ => { s with file := ⟨[], 0⟩ }
  | .fopen _ .read, _ => { s with file := { s.file with position := 0 } }
  | .fread _ _, bytes => { s with
      file := { s.file with position := s.file.position + bytes.val.length } }
  | .fseek _ whence offset, _ => { s with file := s.file.seek whence offset }
  | _, _ => s

def relaying (grant : Grant) (opened : Option FileHandle) (kind : Bool) :
    Protocol Resp RelayState where
  requires _ _ := True
  answers := RelayAnswers grant opened kind
  next := RelayState.next

variable {grant : Grant} {opened : Option FileHandle} {kind : Bool} {s : RelayState}
  {fuel : ℕ} {job : Job} {hostname : List UInt8}

theorem relaying_total (kind : Bool) (s : RelayState) (op : Op) :
    ∃ r, (relaying grant opened kind).answers s op r := by
  cases op with
  | time => exact ⟨(0 : ℕ), trivial⟩
  | recv socket size dontWait =>
      cases socket with
      | client fd => exact ⟨.error, trivial⟩
      | server fd =>
          cases hpieces : s.pieces with
          | nil =>
              refine ⟨.data [] (Nat.zero_le _), ?_⟩
              simp [relaying, RelayAnswers, hpieces, RecvResult.bytes, RecvResult.length]
          | cons piece pieces =>
              refine ⟨.data (piece.take size) (List.length_take_le _ _), ?_⟩
              simp [relaying, RelayAnswers, hpieces, RecvResult.bytes, RecvResult.length]
  | peek socket => exact ⟨.error, fun _ ↦ by simp [RecvResult.length]⟩
  | send socket bytes =>
      by_cases hbytes : bytes = []
      · exact ⟨none, fun _ h ↦ absurd hbytes h⟩
      · exact ⟨some ⟨bytes.length, List.length_pos_iff.mpr hbytes, le_rfl⟩, fun _ _ ↦ by simp⟩
  | socket => exact ⟨(0 : ℤ), trivial⟩
  | connect fd address => exact ⟨true, fun _ ↦ rfl⟩
  | close fd => exact ⟨(), trivial⟩
  | getaddrinfo name service => exact ⟨none, trivial⟩
  | freeaddrinfo addresses => exact ⟨(), trivial⟩
  | fopen path mode => exact ⟨opened, rfl⟩
  | fread file size => exact ⟨⟨s.file.read size, List.length_take_le _ _⟩, rfl⟩
  | fwrite file bytes => exact ⟨(), trivial⟩
  | fseek file whence offset => exact ⟨(), trivial⟩
  | fclose file => exact ⟨(), trivial⟩
  | cacheRecordGetOrCreate url => exact ⟨grant, rfl⟩
  | cacheRecordClose record status => exact ⟨(), trivial⟩
  | jobStackPush job => exact ⟨Status.success, trivial⟩
  | indeterminate size => exact ⟨⟨List.replicate size 0, by simp⟩, trivial⟩

/-! ## Delivering -/

/-- `bytes` have gone to the client, unless the job is a prefetch, and to the cache file,
if there is one; the server socket has not been touched. -/
structure Delivered (fd : ℤ) (cacheFile : Option FileHandle) (bytes : List UInt8)
    (s s' : RelayState) : Prop where
  toClient : s'.toClient = s.toClient ++ if fd = -1 then [] else bytes
  toFile : s'.toFile = s.toFile ++ if cacheFile.isSome then bytes else []
  serverClosed : s'.serverClosed = s.serverClosed

theorem Delivered.trans {fd : ℤ} {cacheFile : Option FileHandle} {bytes bytes' : List UInt8}
    {s₁ s₂ s₃ : RelayState} (h : Delivered fd cacheFile bytes s₁ s₂)
    (h' : Delivered fd cacheFile bytes' s₂ s₃) :
    Delivered fd cacheFile (bytes ++ bytes') s₁ s₃ := by
  refine ⟨?_, ?_, h'.serverClosed.trans h.serverClosed⟩
  · rw [h'.toClient, h.toClient]
    split <;> simp
  · rw [h'.toFile, h.toFile]
    split <;> simp

theorem keeps_sendLoop_kind {socket : Socket} (rest : List UInt8)
    (hfuel : rest.length ≤ fuel) :
    (relaying grant opened true).Keeps (sendLoop socket fuel rest)
      (fun s' out ↦ out = .ok .success ∧ s' = s.reach socket rest) s := by
  induction fuel generalizing s rest with
  | zero =>
      obtain rfl : rest = [] := List.length_eq_zero_iff.mp (by omega)
      exact ⟨rfl, by simp⟩
  | succ fuel ih =>
      cases rest with
      | nil => exact ⟨rfl, by simp⟩
      | cons c rest =>
          simp only [sendLoop, peek_bind, send_bind, keeps_call]
          refine ⟨trivial, fun alive halive ↦ ?_⟩
          rw [if_neg (halive rfl), keeps_call]
          refine ⟨trivial, fun sent hsent ↦ ?_⟩
          cases sent with
          | none => exact absurd rfl (hsent rfl (by simp))
          | some n =>
              have hpos := n.property.1
              refine (ih _ ?_).mono ?_
              · simp only [List.length_drop, List.length_cons] at hfuel ⊢
                omega
              · rintro s' out ⟨rfl, rfl⟩
                refine ⟨rfl, ?_⟩
                simp [relaying, RelayState.next]

theorem keeps_trySendInChunks_kind {socket : Socket} (bytes : List UInt8) :
    (relaying grant opened true).Keeps (trySendInChunks socket bytes bytes.length)
      (fun s' out ↦ out = .ok .success ∧
        s' = s.reach socket (if socket.fd = -1 then [] else bytes)) s := by
  unfold trySendInChunks
  by_cases hfd : socket.fd = -1
  · rw [if_pos hfd, if_pos hfd]
    exact ⟨rfl, by simp⟩
  · rw [if_neg hfd, if_neg hfd]
    have hall : bytes.take (bytes.length : ℤ).toNat = bytes := by simp
    rw [hall]
    exact keeps_sendLoop_kind bytes (by simp)

theorem keeps_cacheAndSend_kind {fd : ℤ} (cacheFile : Option FileHandle) (bytes : List UInt8) :
    (relaying grant opened true).Keeps
      (cacheAndSend (.client fd) cacheFile bytes bytes.length)
      (fun s' out ↦ out = .ok .success ∧ Delivered fd cacheFile bytes s s' ∧
        s'.pieces = s.pieces) s := by
  cases cacheFile with
  | none =>
      apply (keeps_trySendInChunks_kind bytes).mono
      rintro s' out ⟨rfl, rfl⟩
      exact ⟨rfl, ⟨rfl, by simp [RelayState.reach], rfl⟩, rfl⟩
  | some file =>
      simp only [cacheAndSend, fwrite_bind]
      rw [if_neg (by omega), keeps_call]
      refine ⟨trivial, fun _ _ ↦ (keeps_trySendInChunks_kind bytes).mono ?_⟩
      rintro s' out ⟨rfl, rfl⟩
      exact ⟨rfl, ⟨rfl, by simp [relaying, RelayState.next, RelayState.reach], rfl⟩, rfl⟩

/-! ## The loop -/

/-- The pieces the loop takes, with `contentRead` bytes of the content read before. -/
def takenPieces (contentLength : ℤ) : ℤ → List (List UInt8) → List (List UInt8)
  | _, [] => []
  | contentRead, piece :: pieces =>
      if contentLength ≤ contentRead ∨ ¬InIntRange (contentRead + piece.length) then []
      else piece :: takenPieces contentLength (contentRead + piece.length) pieces

/-- The loop has read enough before the pieces are used up, and its counter has not
overflowed. -/
def LoopEnds (contentLength : ℤ) : ℤ → List (List UInt8) → Prop
  | contentRead, [] => contentLength ≤ contentRead
  | contentRead, piece :: pieces =>
      contentLength ≤ contentRead ∨ InIntRange (contentRead + piece.length) ∧
        LoopEnds contentLength (contentRead + piece.length) pieces

/-- How the loop ends: it returns if it ends, and in any case it has delivered the pieces
it takes. -/
def LoopOutcome (fd : ℤ) (cacheFile : Option FileHandle) (contentLength contentRead : ℤ)
    (s s' : RelayState) (out : Except Fault Unit) : Prop :=
  Delivered fd cacheFile (takenPieces contentLength contentRead s.pieces).flatten s s' ∧
    (out = .ok () ∧ LoopEnds contentLength contentRead s.pieces ∨
      out = .error .outOfFuel ∨ out = .error .signedOverflow)

/-- What `recv` delivers next: nothing, once the pieces are used up. -/
def RelayState.chunk (s : RelayState) : List UInt8 := s.pieces.headD []

theorem received_kind {serverSocketFd : ℤ} {received : RecvResult jobRequestBufferSize}
    (h : (relaying grant opened true).answers s
      (.recv (.server serverSocketFd) jobRequestBufferSize false) received)
    (hpieces : ∀ piece ∈ s.pieces, piece.length ≤ jobRequestBufferSize) :
    received.bytes = s.chunk ∧ received.length = s.chunk.length := by
  simp only [relaying, RelayAnswers] at h
  unfold RelayState.chunk
  cases hs : s.pieces with
  | nil =>
      rw [hs] at h
      exact ⟨h.1, by simpa using h.2 trivial⟩
  | cons piece pieces =>
      rw [hs] at h
      have hall : piece.take jobRequestBufferSize = piece :=
        List.take_of_length_le (hpieces piece (by simp [hs]))
      simpa [hall] using h

theorem Delivered.refl {fd : ℤ} {cacheFile : Option FileHandle} :
    Delivered fd cacheFile [] s s := by
  refine ⟨?_, ?_, rfl⟩ <;> simp

/-- After the end of the stream the loop goes round without delivering anything. -/
theorem keeps_relayLoop_starved {fd serverSocketFd : ℤ} (cacheFile : Option FileHandle)
    (contentLength contentRead : ℤ) (hs : s.pieces = []) (hmore : contentLength > contentRead) :
    (relaying grant opened true).Keeps
      (relayLoop fuel serverSocketFd (.client fd) cacheFile contentLength contentRead)
      (LoopOutcome fd cacheFile contentLength contentRead s) s := by
  have hnone : takenPieces contentLength contentRead s.pieces = [] := by rw [hs]; rfl
  have hstop : Delivered fd cacheFile (takenPieces contentLength contentRead s.pieces).flatten
      s s := by
    rw [hnone]
    exact .refl
  induction fuel generalizing s with
  | zero => exact ⟨hstop, .inr (.inl rfl)⟩
  | succ fuel ih =>
      simp only [relayLoop, recv_bind]
      rw [if_pos hmore, keeps_call]
      refine ⟨trivial, fun received hreceived ↦ ?_⟩
      obtain ⟨hbytes, hlength⟩ := received_kind hreceived (by simp [hs])
      have hchunk : s.chunk = [] := by simp [RelayState.chunk, hs]
      rw [hbytes, hlength, hchunk, List.length_nil, Int.natCast_zero, Int.add_zero]
      split
      · exact ⟨⟨hstop.toClient, hstop.toFile, hstop.serverClosed⟩, .inr (.inr rfl)⟩
      · apply (keeps_cacheAndSend_kind cacheFile []).bind
        · rintro s₁ status ⟨hstatus, hdelivered, htail⟩
          obtain rfl : status = .success := by simpa using hstatus
          have hs₁ : s₁.pieces = [] := htail.trans (by
            simp [relaying, RelayState.next, hs])
          have hnone₁ : takenPieces contentLength contentRead s₁.pieces = [] := by rw [hs₁]; rfl
          apply (ih hs₁ hnone₁ (by rw [hnone₁]; exact .refl)).mono
          rintro s₂ out ⟨hrest, hout⟩
          rw [hnone₁] at hrest
          rw [hs₁] at hout
          rw [LoopOutcome, hnone, hs]
          have hfirst : Delivered fd cacheFile [] s s₁ :=
            ⟨hdelivered.toClient, hdelivered.toFile, hdelivered.serverClosed⟩
          exact ⟨hfirst.trans hrest, hout⟩
        · rintro s₁ fault ⟨hfault, -⟩
          simp at hfault

/-- In kind surroundings the loop delivers the pieces it takes. -/
theorem keeps_relayLoop_kind {fd serverSocketFd : ℤ} (cacheFile : Option FileHandle)
    (contentLength contentRead : ℤ) (hfuel : s.pieces.length < fuel)
    (hpieces : ∀ piece ∈ s.pieces, piece.length ≤ jobRequestBufferSize) :
    (relaying grant opened true).Keeps
      (relayLoop fuel serverSocketFd (.client fd) cacheFile contentLength contentRead)
      (LoopOutcome fd cacheFile contentLength contentRead s) s := by
  induction fuel generalizing s contentRead with
  | zero => omega
  | succ fuel ih =>
      by_cases hmore : contentLength > contentRead
      · cases hs : s.pieces with
        | nil => exact keeps_relayLoop_starved cacheFile _ _ hs hmore
        | cons piece pieces =>
            have hchunk : s.chunk = piece := by simp [RelayState.chunk, hs]
            simp only [relayLoop, recv_bind]
            rw [if_pos hmore, keeps_call]
            refine ⟨trivial, fun received hreceived ↦ ?_⟩
            obtain ⟨hbytes, hlength⟩ := received_kind hreceived hpieces
            rw [hbytes, hlength, hchunk]
            split
            next hrange =>
              refine ⟨?_, .inr (.inr rfl)⟩
              rw [hs, takenPieces, if_pos (.inr hrange)]
              exact ⟨by simp [relaying, RelayState.next], by simp [relaying, RelayState.next], rfl⟩
            next hrange =>
              apply (keeps_cacheAndSend_kind cacheFile piece).bind
              · rintro s₁ status ⟨hstatus, hdelivered, htail⟩
                obtain rfl : status = .success := by simpa using hstatus
                have hs₁ : s₁.pieces = pieces := htail.trans (congrArg List.tail hs)
                rw [hs] at hfuel hpieces
                refine (ih (s := s₁) _ ?_ ?_).mono ?_
                · simpa [hs₁] using hfuel
                · intro piece hpiece
                  rw [hs₁] at hpiece
                  exact hpieces piece (List.mem_cons_of_mem _ hpiece)
                · rintro s₂ out ⟨hrest, hout⟩
                  rw [hs₁] at hrest hout
                  rw [LoopOutcome, hs, takenPieces, if_neg (not_or.mpr ⟨by omega, hrange⟩),
                    List.flatten_cons]
                  have hfirst : Delivered fd cacheFile piece s s₁ :=
                    ⟨hdelivered.toClient, hdelivered.toFile, hdelivered.serverClosed⟩
                  refine ⟨hfirst.trans hrest, hout.imp_left fun h ↦ ⟨h.1, .inr ⟨?_, h.2⟩⟩⟩
                  exact not_not.mp hrange
              · rintro s₁ fault ⟨hfault, -⟩
                simp at hfault
      · have hle : contentLength ≤ contentRead := by omega
        rw [relayLoop, if_neg hmore]
        rw [keeps_ret, LoopOutcome]
        cases hs : s.pieces with
        | nil => exact ⟨.refl, .inl ⟨rfl, hle⟩⟩
        | cons piece pieces =>
            rw [takenPieces, if_pos (.inl hle)]
            exact ⟨.refl, .inl ⟨rfl, .inl hle⟩⟩

/-! ## The whole relay -/

/-- What the relay delivers of a stream that comes in `pieces`. -/
def deliveredPieces : List (List UInt8) → List (List UInt8)
  | [] => []
  | first :: rest =>
      match parseResponseHeader (responseBuffer first) with
      | .error _ => []
      | .ok (header, content) =>
          if InIntRange (header + content) ∧ (first.length : ℤ) < header + content then
            first :: takenPieces content (first.length - header) rest
          else [first]

theorem deliveredPieces_cons {first : List UInt8} {rest : List (List UInt8)} {lengths : ℤ × ℤ}
    (hparse : parseResponseHeader (responseBuffer first) = .ok lengths) :
    deliveredPieces (first :: rest) =
      if InIntRange (lengths.1 + lengths.2) ∧ (first.length : ℤ) < lengths.1 + lengths.2 then
        first :: takenPieces lengths.2 (first.length - lengths.1) rest
      else [first] := by
  simp only [deliveredPieces, hparse]

/-- The first piece has a header that can be read off, and if it is not the whole
response then the loop ends on the other pieces. -/
def RelayEnds (pieces : List (List UInt8)) : Prop :=
  ∃ first rest, ∃ lengths : ℤ × ℤ, pieces = first :: rest ∧
    parseResponseHeader (responseBuffer first) = .ok lengths ∧
    InIntRange (lengths.1 + lengths.2) ∧
    ((first.length : ℤ) < lengths.1 + lengths.2 →
      LoopEnds lengths.2 (first.length - lengths.1) rest)

/-- The faults of the relay itself. -/
def RelayFault (fault : Fault) : Prop :=
  fault = .outOfFuel ∨ fault = .signedOverflow ∨ fault = .nullPointer

theorem keeps_relayRest_kind {fd serverSocketFd : ℤ} {first : List UInt8}
    {lengths : ℤ × ℤ} (cacheFile : Option FileHandle) (hfuel : s.pieces.length < fuel)
    (hparse : parseResponseHeader (responseBuffer first) = .ok lengths)
    (hpieces : ∀ piece ∈ s.pieces, piece.length ≤ jobRequestBufferSize) :
    (relaying grant opened true).Keeps
      (relayRest fuel serverSocketFd (.client fd) cacheFile lengths first.length)
      (fun s' out ↦ ∃ rest, deliveredPieces (first :: s.pieces) = first :: rest ∧
        Delivered fd cacheFile rest.flatten s s' ∧
        (out = .ok () ∧ RelayEnds (first :: s.pieces) ∨
          ∃ fault, RelayFault fault ∧ out = .error fault)) s := by
  unfold relayRest
  rw [deliveredPieces_cons hparse]
  by_cases hrange : InIntRange (lengths.1 + lengths.2)
  · rw [if_neg (not_not.mpr hrange)]
    by_cases hmore : (first.length : ℤ) < lengths.1 + lengths.2
    · rw [if_pos hmore]
      apply (keeps_relayLoop_kind cacheFile _ _ hfuel hpieces).mono
      rintro s' out ⟨hdelivered, hout⟩
      refine ⟨_, if_pos ⟨hrange, hmore⟩, hdelivered, ?_⟩
      rcases hout with ⟨rfl, hend⟩ | rfl | rfl
      · exact .inl ⟨rfl, first, s.pieces, lengths, rfl, hparse, hrange, fun _ ↦ hend⟩
      · exact .inr ⟨_, .inl rfl, rfl⟩
      · exact .inr ⟨_, .inr (.inl rfl), rfl⟩
    · rw [if_neg hmore]
      exact ⟨[], if_neg fun h ↦ hmore h.2, .refl, .inl ⟨rfl, first, s.pieces, lengths, rfl, hparse,
        hrange, fun h ↦ absurd h hmore⟩⟩
  · rw [if_pos hrange]
    exact ⟨[], if_neg fun h ↦ hrange h.1, .refl, .inr ⟨_, .inr (.inl rfl), rfl⟩⟩

def RelayState.outcome (s : RelayState) : List UInt8 × List UInt8 := (s.toClient, s.toFile)

/-- The calls after the relay: scanning for links and closing. -/
def EndsRequest : Op → Prop
  | .fclose _ => True
  | .cacheRecordClose _ _ => True
  | op => ScansLinks op

theorem finishRelay_calls (cacheFile : Option FileHandle) :
    (finishRelay fuel job grant cacheFile hostname).Calls EndsRequest := by
  have hscan : (dispatchForClient fuel job cacheFile hostname).Calls EndsRequest := by
    unfold dispatchForClient
    split
    · refine (dispatchPrefetchJobs_calls fuel cacheFile hostname).mono fun op hop ↦ ?_
      cases op <;> trivial
    · trivial
  cases grant with
  | unavailable record => trivial
  | shouldRead record => trivial
  | shouldWrite record =>
      refine (hscan.bind fun _ ↦ ?_).bind fun _ ↦ trivial
      cases cacheFile with
      | none => trivial
      | some file => exact ⟨trivial, fun _ ↦ ⟨trivial, fun _ ↦ trivial⟩⟩

theorem finishRelay_none {record : RecordRef} :
    finishRelay fuel job (.shouldWrite record) none hostname = .halt .nullFile := by
  simp only [finishRelay, finishWrite, dispatchForClient]
  split <;> rfl

/-- How a fetch ends in kind surroundings.  What the pieces determine has been delivered.
If the relay ends then a writer without a file stops at its file, and if it does not then
the request ends on a fault of the relay. -/
structure FetchOutcome (fd : ℤ) (grant : Grant) (cacheFile : Option FileHandle)
    (s s' : RelayState) (out : Except Fault Status) : Prop where
  toClient : s'.toClient = s.toClient ++
    if fd = -1 then [] else (deliveredPieces s.pieces).flatten
  toFile : s'.toFile = s.toFile ++
    if cacheFile.isSome then (deliveredPieces s.pieces).flatten else []
  ends : RelayEnds s.pieces ∧
      (grant.action = .shouldWrite → cacheFile = none → out = .error .nullFile) ∨
    ∃ fault, RelayFault fault ∧ out = .error fault

theorem keeps_finishRelay_kind {grant' : Grant} (cacheFile : Option FileHandle) :
    (relaying grant opened kind).Keeps (finishRelay fuel job grant' cacheFile hostname)
      (fun s' out ↦ s'.outcome = s.outcome ∧
        (grant'.action = .shouldWrite → cacheFile = none → out = .error .nullFile)) s := by
  by_cases hnone : grant'.action = .shouldWrite ∧ cacheFile = none
  · obtain ⟨haction, rfl⟩ := hnone
    cases grant' with
    | unavailable record => cases haction
    | shouldRead record => cases haction
    | shouldWrite record =>
        rw [finishRelay_none]
        exact ⟨rfl, fun _ _ ↦ rfl⟩
  · refine (keeps_of_calls RelayState.outcome (finishRelay_calls cacheFile)
      (fun _ _ _ ↦ trivial) ?_).mono ?_
    · intro s op hop r
      cases op <;> first | rfl | exact absurd hop id
    · exact fun s' out hout ↦ ⟨hout, fun haction hfile ↦ absurd ⟨haction, hfile⟩ hnone⟩

@[simp] theorem cstr_responseBuffer (bytes : List UInt8) :
    cstr (responseBuffer bytes) 0 = cstr bytes 0 := by
  simp only [cstr, responseBuffer, List.drop_zero, List.takeWhile_append]
  split
  next hall =>
    rw [(List.takeWhile_prefix _).eq_of_length hall]
    cases jobRequestBufferSize + 1 - bytes.length <;> simp [List.replicate_succ]
  next => rfl

theorem parseResponseHeader_responseBuffer_iff {first : List UInt8} {lengths : ℤ × ℤ} :
    parseResponseHeader (responseBuffer first) = .ok lengths ↔
      headerLength (cstr first 0) = .ok lengths.1 ∧ InIntRange lengths.2 ∧
        lengths.2 = declaredLength (cstr first 0) := by
  rw [parseResponseHeader_eq (cstr_responseBuffer first)]
  obtain ⟨header, content⟩ := lengths
  split
  next hrange =>
    apply iff_of_false (by simp)
    rintro ⟨-, hin, rfl⟩
    exact hrange hin
  next hrange =>
    cases hheader : headerLength (cstr first 0) with
    | error fault => simp [Except.map]
    | ok length =>
        simp only [Except.map, Except.ok.injEq, Prod.mk.injEq]
        constructor
        · rintro ⟨rfl, rfl⟩
          exact ⟨rfl, not_not.mp hrange, rfl⟩
        · rintro ⟨rfl, -, rfl⟩
          exact ⟨rfl, rfl⟩

theorem relayFault_of_parse {bytes : List UInt8} {fault : Fault}
    (h : parseResponseHeader (responseBuffer bytes) = .error fault) : RelayFault fault := by
  rw [parseResponseHeader_eq (cstr_responseBuffer bytes)] at h
  split at h
  · cases h
    exact .inr (.inl rfl)
  · unfold headerLength at h
    split at h
    · cases hlast : lastIdxOf? (cstr bytes 0) lf with
      | none =>
          rw [hlast] at h
          cases h
          exact .inr (.inr rfl)
      | some i => simp [hlast, Except.map] at h
    · simp [Except.map] at h

theorem parseResponseHeader_nil :
    parseResponseHeader (responseBuffer []) = .error .nullPointer := by
  rw [parseResponseHeader_eq (cstr_responseBuffer [])]
  rfl

theorem keeps_relayResponse_kind {grant' : Grant} {serverSocketFd : ℤ}
    (cacheFile : Option FileHandle) (hfuel : s.pieces.length < fuel)
    (hpieces : ∀ piece ∈ s.pieces, piece.length ≤ jobRequestBufferSize) :
    (relaying grant opened true).Keeps
      (relayResponse fuel job grant' cacheFile serverSocketFd hostname)
      (FetchOutcome job.clientSocketFd grant' cacheFile s) s := by
  simp only [relayResponse, recv_bind, keeps_call]
  refine ⟨trivial, fun received hreceived ↦ ?_⟩
  obtain ⟨hbytes, hlength⟩ := received_kind hreceived hpieces
  rw [hbytes, hlength]
  cases hs : s.pieces with
  | nil =>
      have hchunk : s.chunk = [] := by simp [RelayState.chunk, hs]
      rw [hchunk, parseResponseHeader_nil]
      refine ⟨?_, ?_, .inr ⟨_, .inr (.inr rfl), rfl⟩⟩ <;>
        simp [hs, deliveredPieces, relaying, RelayState.next]
  | cons first rest =>
      have hchunk : s.chunk = first := by simp [RelayState.chunk, hs]
      rw [hchunk]
      cases hparse : parseResponseHeader (responseBuffer first) with
      | error fault =>
          refine ⟨?_, ?_, .inr ⟨fault, relayFault_of_parse hparse, rfl⟩⟩ <;>
            simp [hs, hparse, deliveredPieces, relaying, RelayState.next]
      | ok lengths =>
          simp only [Prog.lift_ok, Prog.ret_bind]
          apply (keeps_cacheAndSend_kind cacheFile first).bind
          · rintro s₁ status ⟨hstatus, hdelivered, htail⟩
            obtain rfl : status = .success := by simpa using hstatus
            have hs₁ : s₁.pieces = rest := htail.trans (congrArg List.tail hs)
            rw [if_neg (by decide)]
            rw [hs] at hfuel hpieces
            refine (keeps_relayRest_kind cacheFile ?_ hparse ?_).bind ?_ ?_
            · rw [hs₁]
              exact (Nat.lt_succ_self _).trans hfuel
            · intro piece hpiece
              rw [hs₁] at hpiece
              exact hpieces piece (List.mem_cons_of_mem _ hpiece)
            · rintro s₂ _ ⟨taken, htaken, hrest, hout⟩
              rw [hs₁, ← hs] at htaken hout
              have hall := hdelivered.trans hrest
              rw [← List.flatten_cons, ← htaken] at hall
              have hends : RelayEnds s.pieces := by simpa using hout
              simp only [close_bind, keeps_call]
              refine ⟨trivial, fun answer _ ↦ (keeps_finishRelay_kind cacheFile).mono ?_⟩
              rintro s₃ out ⟨houtcome, hfile⟩
              simp only [RelayState.outcome, Prod.mk.injEq] at houtcome
              exact ⟨houtcome.1.trans hall.toClient, houtcome.2.trans hall.toFile,
                .inl ⟨hends, hfile⟩⟩
            · rintro s₂ fault ⟨taken, htaken, hrest, hout⟩
              rw [hs₁, ← hs] at htaken hout
              have hall := hdelivered.trans hrest
              rw [← List.flatten_cons, ← htaken] at hall
              exact ⟨hall.toClient, hall.toFile, .inr (by simpa using hout)⟩
          · rintro s₁ fault ⟨hfault, -⟩
            simp at hfault

theorem keeps_fetch_kind {grant' : Grant} {serverAddress : Address} {path : List UInt8}
    (cacheFile : Option FileHandle) (hfuel : s.pieces.length < fuel)
    (hpieces : ∀ piece ∈ s.pieces, piece.length ≤ jobRequestBufferSize) :
    (relaying grant opened true).Keeps
      (fetch fuel job grant' cacheFile serverAddress path hostname)
      (FetchOutcome job.clientSocketFd grant' cacheFile s) s := by
  simp only [fetch, newSocket_bind, connect_bind, keeps_call]
  refine ⟨trivial, fun serverSocketFd _ ↦ ⟨trivial, fun connected hconnected ↦ ?_⟩⟩
  obtain rfl : connected = true := hconnected rfl
  rw [if_neg (by decide)]
  apply (keeps_trySendInChunks_kind _).bind
  · rintro s₁ status ⟨hstatus, rfl⟩
    obtain rfl : status = .success := by simpa using hstatus
    rw [if_neg (by decide)]
    exact keeps_relayResponse_kind cacheFile hfuel hpieces
  · rintro s₁ fault ⟨hfault, -⟩
    simp at hfault

/-! ## The request -/

/-- What the cache answers: a path with a question mark is not looked up. -/
def cacheAnswer (path : List UInt8) (grant : Grant) : Grant :=
  if 63 ∈ path then .unavailable none else grant

/-- The request goes to the server: it is not a prefetch of something that is cached
already, and there is no cached file to serve. -/
def Fetches (job : Job) (grant : Grant) (opened : Option FileHandle) : Prop :=
  (job.clientSocketFd = -1 → grant.action = .shouldWrite) ∧
    (grant.action = .shouldRead → opened = none)

/-- The file a fetch caches to.  Without a grant it is what the variable happens to
hold. -/
def relayFile (grant : Grant) (opened cacheFile : Option FileHandle) : Option FileHandle :=
  match grant with
  | .unavailable _ => cacheFile
  | .shouldRead _ => none
  | .shouldWrite _ => opened

/-- The surroundings before a request whose response comes in `pieces`. -/
def RelayState.start (pieces : List (List UInt8)) (file : OpenFile) : RelayState :=
  ⟨pieces, [], [], false, file⟩

theorem keeps_handleValidRequest_of_serveGrant {pieces : List (List UInt8)}
    {initial : OpenFile} {serverAddress : Address} {path : List UInt8}
    {cacheFile : Option FileHandle} {Q : RelayState → Except Fault Status → Prop}
    (h : (relaying grant opened kind).Keeps
      (serveGrant fuel cacheFile job (cacheAnswer path grant) serverAddress path hostname) Q
      (.start pieces initial)) :
    (relaying grant opened kind).Keeps
      (handleValidRequest fuel cacheFile job serverAddress path hostname) Q
      (.start pieces initial) := by
  unfold handleValidRequest cacheAnswer at *
  split
  next hquery =>
    rw [if_pos hquery] at h
    exact h
  next hquery =>
    rw [if_neg hquery] at h
    refine ⟨trivial, fun answer hanswer ↦ ?_⟩
    obtain rfl : answer = grant := hanswer
    exact h

theorem keeps_handleValidRequest_kind {pieces : List (List UInt8)} {initial : OpenFile}
    {serverAddress : Address} {path : List UInt8} (cacheFile : Option FileHandle)
    (hfetch : Fetches job (cacheAnswer path grant) opened) (hfuel : pieces.length < fuel)
    (hpieces : ∀ piece ∈ pieces, piece.length ≤ jobRequestBufferSize) :
    (relaying grant opened true).Keeps
      (handleValidRequest fuel cacheFile job serverAddress path hostname)
      (FetchOutcome job.clientSocketFd (cacheAnswer path grant)
        (relayFile (cacheAnswer path grant) opened cacheFile) (.start pieces initial))
      (.start pieces initial) := by
  apply keeps_handleValidRequest_of_serveGrant
  unfold serveGrant
  rw [if_neg fun h ↦ h.2 (hfetch.1 h.1)]
  cases hgrant : cacheAnswer path grant with
  | unavailable record => exact keeps_fetch_kind cacheFile hfuel hpieces
  | shouldRead record =>
      simp only [fopen_bind, keeps_call]
      refine ⟨trivial, fun answer hanswer ↦ ?_⟩
      obtain rfl : answer = none := by
        rw [show answer = opened from hanswer]
        exact hfetch.2 (by rw [hgrant]; rfl)
      exact (keeps_fetch_kind none hfuel hpieces).mono fun s' out h ↦
        ⟨h.toClient, h.toFile, h.ends⟩
  | shouldWrite record =>
      simp only [fopen_bind, keeps_call]
      refine ⟨trivial, fun answer hanswer ↦ ?_⟩
      obtain rfl : answer = opened := hanswer
      exact (keeps_fetch_kind answer hfuel hpieces).mono fun s' out h ↦
        ⟨h.toClient, h.toFile, h.ends⟩

end HttpProxy
