import HttpProxy.RelayWhole

/-!
# A request and the cache

What one request does to the cache, seen from the request alone: the grant it holds, the
file it has opened, and what it has written, received and sent.  The protocol says when it
may touch the file or close the grant.  A writer closes its grant only with the whole
response written, unless its client goes away in the middle of the relay.
-/

namespace HttpProxy

open CString Interaction Protocol

/-- A `FILE*` that a request has opened. -/
structure OpenedFile where
  handle : FileHandle
  path : List UInt8
  position : ℕ
  deriving DecidableEq, Repr

/-- The request's side of the cache.  The server would send `response`, and `pieces` is
what it has not sent yet; `cached` is set when a cached file has been opened to be read. -/
structure View where
  response : List UInt8
  pieces : List (List UInt8)
  chunks : ℕ
  grant : Option Grant
  closed : Bool
  file : Option OpenedFile
  written : List UInt8
  cached : Bool
  sent : List UInt8

/-- The grant is the request's own and has not been given back. -/
def View.Holds (v : View) (grant : Grant) : Prop := v.grant = some grant ∧ v.closed = false

/-- The client may go away: the request is not a writer of a file between its first chunk and
the end of the response. -/
def View.MayFail (v : View) : Prop :=
  (∀ record, ¬v.Holds (.shouldWrite record)) ∨ v.file = none ∨ v.chunks ≤ 1 ∨ v.pieces = []

/-- The answers by which a client is found gone. -/
def ClientFails : (op : Op) → Resp op → Prop
  | .peek (.client _), alive => alive.length = 0
  | .send (.client _) _, sent => sent = none
  | _, _ => False

/-- The request can append to the file of its record. -/
def View.CanWrite (v : View) (handle : FileHandle) : Prop :=
  ∃ record file, v.Holds (.shouldWrite record) ∧ v.file = some file ∧ file.handle = handle ∧
    file.path = cacheFilePath record ∧ file.position = v.written.length

/-- The position in the file, if it is the request's, moves. -/
def View.move (v : View) (handle : FileHandle) (f : ℕ → ℕ) : View :=
  { v with file := v.file.map fun file ↦
      if file.handle = handle then { file with position := f file.position } else file }

/-- What a request may do.  It closes a grant it holds, and a writer's only once the whole
response is in the file. -/
def View.Requires (v : View) : Op → Prop
  | .cacheRecordGetOrCreate _ => v.grant = none ∧ v.closed = false ∧ v.file = none
  | .cacheRecordClose record .unavailable => v.Holds (.unavailable (some record))
  | .cacheRecordClose record .shouldRead => v.Holds (.shouldRead record)
  | .cacheRecordClose record .shouldWrite => v.Holds (.shouldWrite record) ∧
      (∃ file, v.file = some file ∧ file.path = cacheFilePath record) ∧ v.written = v.response
  | .fopen path .read => v.file = none ∧
      ∃ record, v.Holds (.shouldRead record) ∧ path = cacheFilePath record
  | .fopen path .write => v.file = none ∧
      ∃ record, v.Holds (.shouldWrite record) ∧ path = cacheFilePath record
  | .fwrite handle _ => v.CanWrite handle
  | _ => True

/-- The answers a request can rely on, with `source` in the file of a record it may read.
`leftover` is what the variable `cache_file` holds before it is assigned. -/
def View.Answers (source : List UInt8) (job : Job) (leftover : Option FileHandle) (v : View) :
    (op : Op) → Resp op → Prop
  | .cacheRecordGetOrCreate _, answer =>
      answer.action = .unavailable → job.clientSocketFd ≠ -1 → leftover = none
  | .recv (.server _) size _, received =>
      match v.pieces with
      | [] => True
      | piece :: _ => received.bytes = piece.take size ∧
          received.length = (piece.take size).length
  | .fread handle size, bytes => v.cached = true → v.closed = false →
      ∀ file, v.file = some file → file.handle = handle →
        bytes.val = (source.drop file.position).take size
  | _, _ => True

def View.next (v : View) : (op : Op) → Resp op → View
  | .cacheRecordGetOrCreate _, answer => { v with grant := some answer }
  | .cacheRecordClose _ _, _ => { v with closed := true }
  | .recv (.server _) _ _, _ => { v with pieces := v.pieces.tail, chunks := v.chunks + 1 }
  | .send (.client _) bytes, some n => { v with sent := v.sent ++ bytes.take n.val }
  | .fopen path .read, some handle =>
      { v with file := some ⟨handle, path, 0⟩, cached := true }
  | .fopen path .write, some handle =>
      { v with file := some ⟨handle, path, 0⟩, written := [] }
  | .fread handle _, bytes => v.move handle (· + bytes.val.length)
  | .fwrite handle bytes, _ =>
      { v.move handle (· + bytes.length) with written := v.written ++ bytes }
  | .fseek handle whence offset, _ =>
      v.move handle fun position ↦ ((⟨[], position⟩ : OpenFile).seek whence offset).position
  | _, _ => v

def viewing (source : List UInt8) (job : Job) (leftover : Option FileHandle) :
    Protocol Resp View where
  requires := View.Requires
  answers v op r := (ClientFails op r → v.MayFail) ∧ v.Answers source job leftover op r
  next := View.next

variable {source : List UInt8} {job job' : Job} {leftover cacheFile : Option FileHandle}
  {v : View} {fuel : ℕ} {hostname path : List UInt8} {serverAddress : Address}

/-! ## Sending -/

/-- Sending moves nothing but what the client has.  It delivers everything or fails, and
it fails only where the client may. -/
def SendOutcome (socket : Socket) (bytes : List UInt8) (v v' : View)
    (out : Except Fault Status) : Prop :=
  v' = { v with sent := v'.sent } ∧
    (out = .ok .success ∧
        (∀ fd, socket = .client fd → fd ≠ -1 → v'.sent = v.sent ++ bytes) ∨
      out = .ok .fail ∧ ∀ fd, socket = .client fd → v.MayFail)

theorem keeps_sendLoop_view {socket : Socket} (rest : List UInt8)
    (hfuel : rest.length ≤ fuel) :
    (viewing source job leftover).Keeps (sendLoop socket fuel rest) (SendOutcome socket rest v)
      v := by
  induction fuel generalizing v rest with
  | zero =>
      obtain rfl : rest = [] := List.length_eq_zero_iff.mp (by omega)
      exact ⟨rfl, .inl ⟨rfl, by simp⟩⟩
  | succ fuel ih =>
      cases rest with
      | nil => exact ⟨rfl, .inl ⟨rfl, by simp⟩⟩
      | cons c rest =>
          simp only [sendLoop, peek_bind, send_bind, keeps_call]
          refine ⟨trivial, fun alive halive ↦ ?_⟩
          split
          next hgone =>
            refine ⟨rfl, .inr ⟨rfl, ?_⟩⟩
            rintro fd rfl
            exact halive.1 hgone
          next =>
            rw [keeps_call]
            refine ⟨trivial, fun sent hsent ↦ ?_⟩
            cases sent with
            | none =>
                refine ⟨by cases socket <;> rfl, .inr ⟨rfl, ?_⟩⟩
                rintro fd rfl
                exact hsent.1 rfl
            | some n =>
                have hpos := n.property.1
                refine (ih _ ?_).mono ?_
                · simp only [List.length_drop, List.length_cons] at hfuel ⊢
                  omega
                · rintro v' out ⟨hv', hout⟩
                  cases socket with
                  | client fd =>
                      refine ⟨hv'.trans rfl, hout.imp (And.imp_right ?_) id⟩
                      rintro hsent fd' ⟨⟩ hfd'
                      rw [hsent fd rfl hfd']
                      simp [viewing, View.next]
                  | server fd => exact ⟨hv', hout.imp (And.imp_right (by simp)) id⟩

theorem keeps_trySendInChunks_view {socket : Socket} (bytes : List UInt8) :
    (viewing source job leftover).Keeps (trySendInChunks socket bytes bytes.length)
      (SendOutcome socket bytes v) v := by
  unfold trySendInChunks
  split
  next hfd =>
    refine ⟨rfl, .inl ⟨rfl, ?_⟩⟩
    rintro fd rfl hne
    exact absurd hfd hne
  next =>
    have hall : bytes.take (bytes.length : ℤ).toNat = bytes := by simp
    rw [hall]
    exact keeps_sendLoop_view bytes (by simp)

def View.cacheChunk (v : View) (cacheFile : Option FileHandle) (bytes : List UInt8) : View :=
  match cacheFile with
  | none => v
  | some handle =>
      { v.move handle (· + bytes.length) with written := v.written ++ bytes }

theorem keeps_cacheAndSend_view {fd : ℤ} (bytes : List UInt8)
    (hfile : ∀ handle, cacheFile = some handle → v.CanWrite handle) :
    (viewing source job leftover).Keeps
      (cacheAndSend (.client fd) cacheFile bytes bytes.length)
      (SendOutcome (.client fd) bytes (v.cacheChunk cacheFile bytes)) v := by
  cases cacheFile with
  | none => exact keeps_trySendInChunks_view bytes
  | some handle =>
      simp only [cacheAndSend, fwrite_bind]
      rw [if_neg (by omega), keeps_call]
      have hall : bytes.take (bytes.length : ℤ).toNat = bytes := by simp
      rw [hall]
      exact ⟨hfile handle rfl, fun _ _ ↦ keeps_trySendInChunks_view bytes⟩

/-! ## Relaying -/

/-- What does not change while a request relays and scans. -/
def View.frame (v : View) :
    List UInt8 × Option Grant × Bool × Bool × Option (FileHandle × List UInt8) :=
  (v.response, v.grant, v.closed, v.cached, v.file.map fun file ↦ (file.handle, file.path))

@[simp] theorem View.frame_move (v : View) (handle : FileHandle) (f : ℕ → ℕ) :
    (v.move handle f).frame = v.frame := by
  simp only [View.frame, View.move, Option.map_map, Prod.mk.injEq, true_and]
  congr 1
  funext file
  simp only [Function.comp_apply]
  split <;> rfl

@[simp] theorem View.frame_cacheChunk (v : View) (cacheFile : Option FileHandle)
    (bytes : List UInt8) : (v.cacheChunk cacheFile bytes).frame = v.frame := by
  cases cacheFile with
  | none => rfl
  | some handle => exact View.frame_move v handle (· + bytes.length)

/-- The relay is in step with the stream: what has been received is in the file. -/
structure Relaying (cacheFile : Option FileHandle) (v : View) : Prop where
  pieces : ∀ piece ∈ v.pieces, piece ≠ [] ∧ piece.length ≤ jobRequestBufferSize
  file : ∀ handle, cacheFile = some handle →
    v.CanWrite handle ∧ v.written ++ v.pieces.flatten = v.response

def View.relayPiece (v : View) (cacheFile : Option FileHandle) (piece : List UInt8) : View :=
  ({ v with pieces := v.pieces.tail, chunks := v.chunks + 1 } : View).cacheChunk cacheFile piece

theorem Relaying.relayPiece {piece : List UInt8} {rest : List (List UInt8)}
    (h : Relaying cacheFile v) (hv : v.pieces = piece :: rest) :
    Relaying cacheFile (v.relayPiece cacheFile piece) ∧
      (v.relayPiece cacheFile piece).pieces = rest := by
  have htail : ∀ p ∈ v.pieces.tail, p ≠ [] ∧ p.length ≤ jobRequestBufferSize :=
    fun p hp ↦ h.pieces p (List.mem_of_mem_tail hp)
  cases cacheFile with
  | none => exact ⟨⟨htail, by simp⟩, by simp [View.relayPiece, View.cacheChunk, hv]⟩
  | some handle =>
      obtain ⟨⟨record, file, hholds, hfile, rfl, hpath, hposition⟩, hwritten⟩ := h.file handle rfl
      refine ⟨⟨htail, ?_⟩, by simp [View.relayPiece, View.cacheChunk, View.move, hv]⟩
      rintro _ ⟨⟩
      refine ⟨⟨record, { file with position := file.position + piece.length }, hholds, ?_, rfl,
        hpath, ?_⟩, ?_⟩
      · simp [View.relayPiece, View.cacheChunk, View.move, hfile]
      · simp [View.relayPiece, View.cacheChunk, View.move, hposition]
      · simpa [View.relayPiece, View.cacheChunk, View.move, hv] using hwritten

/-- How a relay of the whole response ends if it returns. -/
def RelayDone (cacheFile : Option FileHandle) (v v' : View) : Prop :=
  v'.frame = v.frame ∧ Relaying cacheFile v' ∧ (cacheFile.isSome → v'.pieces = [])

theorem pieces_eq_nil {pieces : List (List UInt8)} (hpieces : ∀ piece ∈ pieces, piece ≠ [])
    (h : pieces.flatten.length = 0) : pieces = [] := by
  cases pieces with
  | nil => rfl
  | cons piece pieces =>
      have hpos := List.length_pos_iff.mpr (hpieces piece (by simp))
      simp only [List.flatten_cons, List.length_append] at h
      omega

theorem keeps_relayLoop_view {fd serverSocketFd contentLength contentRead : ℤ}
    (hv : Relaying cacheFile v) (hchunks : 1 ≤ v.chunks)
    (hcount : contentLength = contentRead + v.pieces.flatten.length) :
    (viewing source job leftover).Keeps
      (relayLoop fuel serverSocketFd (.client fd) cacheFile contentLength contentRead)
      (fun v' out ↦ (∃ fault, out = .error fault) ∧ v'.frame = v.frame ∨ RelayDone cacheFile v v')
      v := by
  induction fuel generalizing v contentRead with
  | zero => exact .inl ⟨⟨_, rfl⟩, rfl⟩
  | succ fuel ih =>
      simp only [relayLoop, recv_bind]
      cases hs : v.pieces with
      | nil =>
          rw [hs] at hcount
          rw [if_neg (by simp at hcount; omega)]
          exact .inr ⟨rfl, hv, fun _ ↦ hs⟩
      | cons piece rest =>
          obtain ⟨hne, hlen⟩ := hv.pieces piece (by simp [hs])
          have hpos := List.length_pos_iff.mpr hne
          rw [hs, List.flatten_cons, List.length_append] at hcount
          rw [if_pos (by omega), keeps_call]
          refine ⟨trivial, fun received hreceived ↦ ?_⟩
          obtain ⟨hbytes, hlength⟩ : received.bytes = piece ∧ received.length = piece.length := by
            have hanswer := hreceived.2
            simp only [View.Answers, hs] at hanswer
            rwa [List.take_of_length_le hlen] at hanswer
          rw [hbytes, hlength]
          obtain ⟨hrelaying, hrest⟩ := hv.relayPiece hs
          split
          · exact .inl ⟨⟨_, rfl⟩, rfl⟩
          · refine (keeps_cacheAndSend_view piece ?_).bind ?_ ?_
            · intro handle hhandle
              obtain ⟨record, file, hholds, hfile⟩ := (hv.file handle hhandle).1
              exact ⟨record, file, hholds, hfile⟩
            · rintro v₁ status ⟨hv₁, hout⟩
              have hframe : v₁.frame = v.frame := by
                rw [hv₁]
                exact View.frame_cacheChunk _ cacheFile piece
              have hrelaying₁ : Relaying cacheFile v₁ := by
                rw [hv₁]
                exact ⟨hrelaying.pieces, hrelaying.file⟩
              have hpieces₁ : v₁.pieces = rest := by
                rw [hv₁]
                exact hrest
              have hchunks₁ : v₁.chunks = v.chunks + 1 := by
                rw [hv₁]
                cases cacheFile <;> rfl
              split
              next hfail =>
                refine .inr ⟨hframe, hrelaying₁, fun hsome ↦ ?_⟩
                obtain ⟨handle, hhandle⟩ := Option.isSome_iff_exists.mp hsome
                obtain ⟨⟨record, file, hholds, hfile, -⟩, -⟩ := hrelaying₁.file handle hhandle
                rw [hfail] at hout
                have hmay : v₁.MayFail := by
                  rw [hv₁]
                  exact (hout.resolve_left (by simp)).2 fd rfl
                rcases hmay with hnone | hnone | hfirst | hlast
                · exact absurd hholds (hnone record)
                · exact absurd (hfile.symm.trans hnone) (by simp)
                · omega
                · exact hlast
              next =>
                apply (ih hrelaying₁ (by omega) (by rw [hpieces₁]; omega)).mono
                rintro v₂ out (⟨hfault, hframe₂⟩ | ⟨hframe₂, hdone⟩)
                · exact .inl ⟨hfault, hframe₂.trans hframe⟩
                · exact .inr ⟨hframe₂.trans hframe, hdone⟩
            · rintro v₁ fault ⟨hv₁, hout⟩
              rcases hout with ⟨hout, -⟩ | ⟨hout, -⟩ <;> simp at hout

/-- The response comes whole, with its header in the first piece. -/
def CompleteResponse (pieces : List (List UInt8)) : Prop :=
  (∀ piece ∈ pieces, piece ≠ [] ∧ piece.length ≤ jobRequestBufferSize) ∧
    ∃ response : LengthResponse, pieces.flatten = response.bytes ∧
      response.header <+: pieces.headD []

theorem CompleteResponse.ne_nil {pieces : List (List UInt8)} (h : CompleteResponse pieces) :
    ∃ first rest, pieces = first :: rest := by
  obtain ⟨-, response, hflatten, -⟩ := h
  cases pieces with
  | nil => exact absurd hflatten.symm response.bytes_ne_nil
  | cons first rest => exact ⟨first, rest, rfl⟩

/-- The first piece of a whole response gives both lengths, if they can be had at all. -/
theorem CompleteResponse.lengths {first : List UInt8} {rest : List (List UInt8)}
    {lengths : ℤ × ℤ} (h : CompleteResponse (first :: rest))
    (hparse : parseResponseHeader (responseBuffer first) = .ok lengths) :
    lengths.1 + lengths.2 = (first :: rest).flatten.length := by
  obtain ⟨-, response, hflatten, r, hfirst⟩ := h
  obtain ⟨hheader, -, hcontent⟩ := parseResponseHeader_responseBuffer_iff.mp hparse
  obtain ⟨htext, hend⟩ := response.text_of_header r
  have hdeclared : declaredLength (response.header ++ cstr r 0) = response.body.length := by
    rw [response.header_eq, List.append_assoc]
    exact response.declaredLength_upToLength _
  rw [List.headD_cons] at hfirst
  rw [← hfirst, htext] at hheader hcontent
  rw [headerLength, hdeclared, if_neg (by omega), hend] at hheader
  have hlength : (response.header.length : ℤ) = lengths.1 := by simpa using hheader
  rw [hflatten, LengthResponse.bytes, List.length_append, ← hlength, hcontent, hdeclared]
  omega

theorem keeps_relayRest_view {fd serverSocketFd bytesRead : ℤ} {lengths : ℤ × ℤ}
    (hv : Relaying cacheFile v) (hchunks : 1 ≤ v.chunks)
    (hcount : lengths.1 + lengths.2 = bytesRead + v.pieces.flatten.length) :
    (viewing source job leftover).Keeps
      (relayRest fuel serverSocketFd (.client fd) cacheFile lengths bytesRead)
      (fun v' out ↦ (∃ fault, out = .error fault) ∧ v'.frame = v.frame ∨ RelayDone cacheFile v v')
      v := by
  unfold relayRest
  split
  · exact .inl ⟨⟨_, rfl⟩, rfl⟩
  · split
    · exact keeps_relayLoop_view hv hchunks (by omega)
    · refine .inr ⟨rfl, hv, fun _ ↦ pieces_eq_nil (fun p hp ↦ (hv.pieces p hp).1) ?_⟩
      omega

theorem View.next_scans {op : Op} (hop : ScansLinks op) (r : Resp op) :
    ((v.next op r).frame, (v.next op r).written, (v.next op r).sent) =
      (v.frame, v.written, v.sent) := by
  cases op with
  | fread handle size => exact Prod.ext (View.frame_move v handle _) rfl
  | fseek handle whence offset => exact Prod.ext (View.frame_move v handle _) rfl
  | jobStackPush job => rfl
  | indeterminate size => rfl
  | _ => exact absurd hop id

theorem keeps_dispatchPrefetchJobs_view {cachedResponse : Option FileHandle} :
    (viewing source job leftover).Keeps (dispatchPrefetchJobs fuel cachedResponse hostname)
      (fun v' _ ↦ (v'.frame, v'.written, v'.sent) = (v.frame, v.written, v.sent)) v := by
  refine keeps_of_calls (fun v : View ↦ (v.frame, v.written, v.sent))
    (dispatchPrefetchJobs_calls fuel cachedResponse hostname) ?_ fun v op hop r ↦
      View.next_scans hop r
  intro v op hop
  cases op <;> trivial

/-- A request answers on the hit path only by sending the cached file. -/
def Answered (source : List UInt8) (v' : View) (out : Except Fault Status) : Prop :=
  out = .ok .success → v'.cached = true → v'.sent = source

/-- A request that fetches a response: it does not serve a cached file, and the file it
caches to, if any, is the empty file of the record it writes. -/
structure Fetching (grant : Grant) (cacheFile : Option FileHandle) (v : View) : Prop where
  cached : v.cached = false
  holds : ∀ record, grant = .shouldWrite record → v.Holds (.shouldWrite record)
  file : ∀ handle, cacheFile = some handle → ∃ record, grant = .shouldWrite record ∧
    v.file = some ⟨handle, cacheFilePath record, 0⟩ ∧ v.written = []

theorem keeps_finishRelay_view {grant : Grant} (hcached : v.cached = false)
    (hdone : ∀ record, grant = .shouldWrite record → cacheFile.isSome →
      v.Holds (.shouldWrite record) ∧
        (∃ file, v.file = some file ∧ file.path = cacheFilePath record) ∧
        v.written = v.response) :
    (viewing source job leftover).Keeps (finishRelay fuel job' grant cacheFile hostname)
      (Answered source) v := by
  have hanswered (out : Except Fault Status) : Answered source v out :=
    fun _ h ↦ absurd h (by simp [hcached])
  cases grant with
  | unavailable record => exact hanswered _
  | shouldRead record => exact hanswered _
  | shouldWrite record =>
      cases cacheFile with
      | none =>
          rw [finishRelay_none]
          exact hanswered _
      | some handle =>
          obtain ⟨hholds, ⟨file, hfile, hpath⟩, hwritten⟩ := hdone record rfl rfl
          have hscan : (viewing source job leftover).Keeps
              (dispatchForClient fuel job' (some handle) hostname)
              (fun v' _ ↦ (v'.frame, v'.written, v'.sent) = (v.frame, v.written, v.sent)) v := by
            unfold dispatchForClient
            split
            · exact keeps_dispatchPrefetchJobs_view
            · rfl
          have hfinish : (viewing source job leftover).Keeps
              (finishWrite fuel job' record (some handle) hostname)
              (fun v' _ ↦ v'.cached = false) v := by
            refine hscan.bind (fun v₁ _ hv₁ ↦ ?_) fun v₁ fault hv₁ ↦ ?_
            · simp only [View.frame, Prod.mk.injEq] at hv₁
              obtain ⟨⟨hresponse, hgrant, hclosed, hcached₁, hfile₁⟩, hwritten₁, -⟩ := hv₁
              have hopen : ∃ file₁, v₁.file = some file₁ ∧ file₁.path = cacheFilePath record := by
                rw [hfile, Option.map_some, Option.map_eq_some_iff] at hfile₁
                obtain ⟨file₁, hfile₁, hsame⟩ := hfile₁
                exact ⟨file₁, hfile₁, (congrArg Prod.snd hsame).trans hpath⟩
              refine ⟨trivial, fun _ _ ↦ ⟨⟨⟨hgrant.trans hholds.1, hclosed.trans hholds.2⟩, hopen,
                ?_⟩, fun _ _ ↦ hcached₁.trans hcached⟩⟩
              exact hwritten₁.trans (hwritten.trans hresponse.symm)
            · simp only [View.frame, Prod.mk.injEq] at hv₁
              exact hv₁.1.2.2.2.1.trans hcached
          refine hfinish.bind (fun v₁ _ hv₁ ↦ ?_) fun v₁ fault _ h ↦ by simp at h
          exact fun _ h ↦ absurd h (by simp [hv₁])

theorem keeps_relayResponse_view {grant : Grant} {serverSocketFd : ℤ}
    (hv : Fetching grant cacheFile v)
    (hpieces : v.pieces.flatten = v.response) (hresponse : CompleteResponse v.pieces) :
    (viewing source job leftover).Keeps
      (relayResponse fuel job' grant cacheFile serverSocketFd hostname) (Answered source) v := by
  have hrelaying : Relaying cacheFile v := by
    refine ⟨hresponse.1, fun handle hhandle ↦ ?_⟩
    obtain ⟨record, hgrant, hfile, hwritten⟩ := hv.file handle hhandle
    refine ⟨⟨record, _, hv.holds record hgrant, hfile, rfl, rfl, by rw [hwritten]; rfl⟩, ?_⟩
    rw [hwritten]
    exact hpieces
  obtain ⟨first, rest, hs⟩ := hresponse.ne_nil
  obtain ⟨-, hlen⟩ := hresponse.1 first (by simp [hs])
  obtain ⟨hrelaying₁, hrest⟩ := hrelaying.relayPiece hs
  simp only [relayResponse, recv_bind, keeps_call]
  refine ⟨trivial, fun received hreceived ↦ ?_⟩
  obtain ⟨hbytes, hlength⟩ : received.bytes = first ∧ received.length = first.length := by
    have hanswer := hreceived.2
    simp only [View.Answers, hs] at hanswer
    rwa [List.take_of_length_le hlen] at hanswer
  rw [hbytes, hlength]
  cases hparse : parseResponseHeader (responseBuffer first) with
  | error fault => exact fun h ↦ by simp at h
  | ok lengths =>
      have hsum : lengths.1 + lengths.2 = first.length + rest.flatten.length := by
        rw [hs] at hresponse
        simpa using hresponse.lengths hparse
      simp only [Prog.lift_ok, Prog.ret_bind]
      refine (keeps_cacheAndSend_view first ?_).bind ?_ ?_
      · intro handle hhandle
        obtain ⟨record, file, hholds, hfile⟩ := (hrelaying.file handle hhandle).1
        exact ⟨record, file, hholds, hfile⟩
      · rintro v₁ status ⟨hv₁, -⟩
        split
        · exact fun h ↦ by simp at h
        · have hframe₁ : v₁.frame = v.frame := by
            rw [hv₁]
            exact View.frame_cacheChunk _ cacheFile first
          have hrelaying₁ : Relaying cacheFile v₁ := by
            rw [hv₁]
            exact ⟨hrelaying₁.pieces, hrelaying₁.file⟩
          have hpieces₁ : v₁.pieces = rest := by
            rw [hv₁]
            exact hrest
          have hchunks₁ : 1 ≤ v₁.chunks := by
            rw [hv₁]
            cases cacheFile <;> exact Nat.le_add_left _ _
          refine (keeps_relayRest_view hrelaying₁ hchunks₁ (by rw [hpieces₁]; exact hsum)).bind
            ?_ ?_
          · rintro v₂ _ (⟨⟨fault, hfault⟩, -⟩ | ⟨hframe₂, hrelaying₂, hdone⟩)
            · simp at hfault
            · have hframe := hframe₂.trans hframe₁
              simp only [View.frame, Prod.mk.injEq] at hframe
              simp only [close_bind, keeps_call]
              refine ⟨trivial, fun _ _ ↦ keeps_finishRelay_view (hframe.2.2.2.1.trans hv.cached) ?_⟩
              intro record hgrant hsome
              obtain ⟨handle, rfl⟩ := Option.isSome_iff_exists.mp hsome
              have hholds := hv.holds record hgrant
              have hholds₂ : v₂.Holds (.shouldWrite record) :=
                ⟨hframe.2.1.trans hholds.1, hframe.2.2.1.trans hholds.2⟩
              obtain ⟨⟨record', file, hholds', hfile, -, hpath, -⟩, hwritten⟩ :=
                hrelaying₂.file handle rfl
              obtain rfl : record' = record := by
                simpa using hholds'.1.symm.trans hholds₂.1
              rw [hdone rfl, List.flatten_nil, List.append_nil] at hwritten
              exact ⟨hholds₂, ⟨file, hfile, hpath⟩, hwritten⟩
          · rintro v₂ fault - h
            simp at h
      · rintro v₁ fault ⟨-, ⟨hout, -⟩ | ⟨hout, -⟩⟩ <;> simp at hout

theorem keeps_closeIfOpen_view :
    (viewing source job leftover).Keeps (closeIfOpen cacheFile >>= fun _ ↦ .ret Status.fail)
      (Answered source) v := by
  cases cacheFile with
  | none => exact fun h ↦ by simp at h
  | some file => exact ⟨trivial, fun _ _ h ↦ by simp at h⟩

theorem keeps_fetch_view {grant : Grant} (hv : Fetching grant cacheFile v)
    (hpieces : v.pieces.flatten = v.response) (hresponse : CompleteResponse v.pieces) :
    (viewing source job leftover).Keeps
      (fetch fuel job' grant cacheFile serverAddress path hostname) (Answered source) v := by
  simp only [fetch, newSocket_bind, connect_bind, keeps_call]
  refine ⟨trivial, fun serverSocketFd _ ↦ ⟨trivial, fun connected _ ↦ ?_⟩⟩
  split
  · exact keeps_closeIfOpen_view
  · apply (keeps_trySendInChunks_view _).bind
    · rintro v₁ status ⟨hv₁, -⟩
      rw [hv₁]
      split
      · exact keeps_closeIfOpen_view
      · exact keeps_relayResponse_view (v := { v with sent := v₁.sent })
          ⟨hv.cached, hv.holds, hv.file⟩ hpieces hresponse
    · rintro v₁ fault ⟨-, ⟨hout, -⟩ | ⟨hout, -⟩⟩ <;> simp at hout

/-! ## Serving -/

/-- A reader has sent what it has read of the file. -/
structure Reading (source : List UInt8) (handle : FileHandle) (v : View) : Prop where
  cached : v.cached = true
  closed : v.closed = false
  file : ∃ file, v.file = some file ∧ file.handle = handle ∧ file.position ≤ source.length ∧
    v.sent = source.take file.position

theorem keeps_sendCachedLoop_view {fd : ℤ} {handle : FileHandle} (hfd : fd ≠ -1)
    (hv : Reading source handle v) :
    (viewing source job leftover).Keeps (sendCachedLoop fuel (.client fd) handle)
      (fun v' out ↦ v'.frame = v.frame ∧
        ∀ status, out = .ok status → status ≠ .fail → v'.sent = source) v := by
  induction fuel generalizing v with
  | zero => exact ⟨rfl, by simp⟩
  | succ fuel ih =>
      obtain ⟨file, hfile, rfl, hposition, hsent⟩ := hv.file
      simp only [sendCachedLoop, fread_bind, keeps_call]
      refine ⟨trivial, fun bytes hbytes ↦ ?_⟩
      have hread : bytes.val = (source.drop file.position).take jobRequestBufferSize :=
        hbytes.2 hv.cached hv.closed file hfile rfl
      split
      next hempty =>
        refine ⟨View.frame_move v file.handle _, fun _ _ _ ↦ ?_⟩
        have hend : source.length ≤ file.position := by
          rw [hempty] at hread
          have hlen := congrArg List.length hread
          simp only [List.length_nil, List.length_take, List.length_drop,
            jobRequestBufferSize] at hlen
          omega
        exact hsent.trans (List.take_of_length_le hend)
      next hne =>
        have hfile₁ : (v.move file.handle (· + bytes.val.length)).file =
            some { file with position := file.position + bytes.val.length } := by
          simp [View.move, hfile]
        have hpre : bytes.val <+: source.drop file.position := by
          rw [hread]
          exact List.take_prefix _ _
        have hall : v.sent ++ bytes.val = source.take (file.position + bytes.val.length) := by
          rw [hsent, List.take_add, ← List.prefix_iff_eq_take.mp hpre]
        have hinside : file.position + bytes.val.length ≤ source.length := by
          have hlen := hpre.length_le
          rw [List.length_drop] at hlen
          omega
        apply (keeps_trySendInChunks_view bytes.val).bind
        · rintro v₁ status ⟨hv₁, hout⟩
          have hframe₁ : v₁.frame = v.frame := by
            rw [hv₁]
            exact View.frame_move v file.handle (· + bytes.val.length)
          split
          next hfail => exact ⟨hframe₁, by simp⟩
          next hok =>
            have hsent₁ : v₁.sent = v.sent ++ bytes.val := by
              rcases hout with ⟨-, hsent₁⟩ | ⟨hfail, -⟩
              · exact hsent₁ fd rfl hfd
              · exact absurd (Except.ok.inj hfail) hok
            have hreading : Reading source file.handle v₁ := by
              refine ⟨?_, ?_, { file with position := file.position + bytes.val.length }, ?_, rfl,
                ?_, ?_⟩
              · rw [hv₁]
                exact hv.cached
              · rw [hv₁]
                exact hv.closed
              · rw [hv₁]
                exact hfile₁
              · exact hinside
              · exact hsent₁.trans hall
            apply (ih hreading).mono
            rintro v₂ out ⟨hframe₂, hsent₂⟩
            exact ⟨hframe₂.trans hframe₁, hsent₂⟩
        · rintro v₁ fault ⟨-, ⟨hout, -⟩ | ⟨hout, -⟩⟩ <;> simp at hout

theorem keeps_serveCached_view {record : RecordRef} {handle : FileHandle}
    (hfd : job'.clientSocketFd ≠ -1) (hholds : v.Holds (.shouldRead record))
    (hv : Reading source handle v) :
    (viewing source job leftover).Keeps (serveCached fuel job' record handle hostname)
      (Answered source) v := by
  unfold serveCached
  refine (keeps_sendCachedLoop_view hfd hv).bind ?_ fun _ _ _ h ↦ by simp at h
  rintro v₁ status ⟨hframe₁, hsent₁⟩
  simp only [View.frame, Prod.mk.injEq] at hframe₁
  have hholds₁ : v₁.Holds (.shouldRead record) :=
    ⟨hframe₁.2.1.trans hholds.1, hframe₁.2.2.1.trans hholds.2⟩
  split
  · exact ⟨trivial, fun _ _ ↦ ⟨hholds₁, fun _ _ h ↦ by simp at h⟩⟩
  next hok =>
    refine keeps_dispatchPrefetchJobs_view.bind ?_ fun _ _ _ h ↦ by simp at h
    intro v₂ _ hv₂
    simp only [View.frame, Prod.mk.injEq] at hv₂
    have hholds₂ : v₂.Holds (.shouldRead record) :=
      ⟨hv₂.1.2.1.trans hholds₁.1, hv₂.1.2.2.1.trans hholds₁.2⟩
    exact ⟨trivial, fun _ _ ↦ ⟨hholds₂, fun _ _ _ _ ↦ hv₂.2.2.trans (hsent₁ status rfl hok)⟩⟩

/-! ## The request -/

/-- A request before its first call. -/
def View.start (pieces : List (List UInt8)) : View where
  response := pieces.flatten
  pieces := pieces
  chunks := 0
  grant := none
  closed := false
  file := none
  written := []
  cached := false
  sent := []

def View.asked (pieces : List (List UInt8)) (grant : Option Grant) : View :=
  { View.start pieces with grant := grant }

theorem keeps_serveGrant_view {grant : Grant} (answer : Option Grant)
    {pieces : List (List UInt8)} (hresponse : CompleteResponse pieces)
    (hanswer : grant.record ≠ none → answer = some grant)
    (hleftover : grant.action = .unavailable → job'.clientSocketFd ≠ -1 → cacheFile = none) :
    (viewing source job leftover).Keeps
      (serveGrant fuel cacheFile job' grant serverAddress path hostname) (Answered source)
      (.asked pieces answer) := by
  unfold serveGrant
  split
  next hprefetch =>
    cases grant with
    | unavailable record =>
        cases record with
        | none => exact fun h ↦ by simp at h
        | some record =>
            refine ⟨⟨hanswer (by simp [Grant.record]), rfl⟩, fun _ _ _ h ↦ ?_⟩
            simp [View.asked, View.start, viewing, View.next] at h
    | shouldRead record =>
        refine ⟨⟨hanswer (by simp [Grant.record]), rfl⟩, fun _ _ _ h ↦ ?_⟩
        simp [View.asked, View.start, viewing, View.next] at h
    | shouldWrite record => exact absurd rfl hprefetch.2
  next hprefetch =>
    cases grant with
    | unavailable record =>
        have hnone : cacheFile = none := hleftover rfl fun hfd ↦
          hprefetch ⟨hfd, by simp [Grant.action]⟩
        rw [hnone]
        exact keeps_fetch_view ⟨rfl, by simp, by simp⟩ rfl hresponse
    | shouldRead record =>
        have hholds : (View.asked pieces answer).Holds (.shouldRead record) :=
          ⟨hanswer (by simp [Grant.record]), rfl⟩
        have hfd : job'.clientSocketFd ≠ -1 := fun hfd ↦ hprefetch ⟨hfd, by simp [Grant.action]⟩
        simp only [fopen_bind, keeps_call]
        refine ⟨⟨rfl, record, hholds, rfl⟩, fun opened _ ↦ ?_⟩
        cases opened with
        | none => exact keeps_fetch_view ⟨rfl, by simp, by simp⟩ rfl hresponse
        | some handle =>
            exact keeps_serveCached_view hfd hholds ⟨rfl, rfl, _, rfl, rfl, Nat.zero_le _, rfl⟩
    | shouldWrite record =>
        have hholds : (View.asked pieces answer).Holds (.shouldWrite record) :=
          ⟨hanswer (by simp [Grant.record]), rfl⟩
        simp only [fopen_bind, keeps_call]
        refine ⟨⟨rfl, record, hholds, rfl⟩, fun opened _ ↦ ?_⟩
        cases opened with
        | none =>
            refine keeps_fetch_view (v := .asked pieces answer) ⟨rfl, ?_, by simp⟩ rfl hresponse
            rintro _ ⟨⟩
            exact hholds
        | some handle =>
            refine keeps_fetch_view ⟨rfl, ?_, ?_⟩ rfl hresponse
            · rintro _ ⟨⟩
              exact hholds
            · rintro _ ⟨⟩
              exact ⟨record, rfl, rfl, rfl⟩

/-- A request keeps to what it may do, and answers from the cache with what is in the
file of its record. -/
theorem keeps_handleValidRequest_view {pieces : List (List UInt8)}
    (hresponse : CompleteResponse pieces)
    (hleftover : 63 ∈ path → job.clientSocketFd ≠ -1 → leftover = none) :
    (viewing source job leftover).Keeps
      (handleValidRequest fuel leftover job serverAddress path hostname) (Answered source)
      (View.start pieces) := by
  unfold handleValidRequest
  split
  next hquery =>
    exact keeps_serveGrant_view none hresponse (by simp [Grant.record])
      fun _ ↦ hleftover hquery
  next =>
    refine ⟨⟨rfl, rfl, rfl⟩, fun grant hgrant ↦ ?_⟩
    exact keeps_serveGrant_view (some grant) hresponse (fun _ ↦ rfl) hgrant.2

end HttpProxy
