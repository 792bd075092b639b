import HttpProxy.Worker

/-!
# Traces of a worker

What can be read off the calls a worker made, and the traces of the sending loop.
-/

namespace HttpProxy

open Interaction Protocol

abbrev Trace := List (Event Resp)

def anything : Protocol Resp Unit where
  requires _ _ := True
  answers _ _ _ := True
  next _ _ _ := ()

/-- Every call has some answer. -/
theorem anything_total (s : Unit) (op : Op) : ∃ r, anything.answers s op r := by
  cases op with
  | time => exact ⟨(0 : ℕ), trivial⟩
  | recv socket size dontWait => exact ⟨.error, trivial⟩
  | peek socket => exact ⟨.error, trivial⟩
  | send socket bytes => exact ⟨none, trivial⟩
  | socket => exact ⟨(0 : ℤ), trivial⟩
  | connect fd address => exact ⟨true, trivial⟩
  | getaddrinfo name service => exact ⟨none, trivial⟩
  | fopen path mode => exact ⟨none, trivial⟩
  | fread file size => exact ⟨⟨[], Nat.zero_le _⟩, trivial⟩
  | cacheRecordGetOrCreate url => exact ⟨.unavailable none, trivial⟩
  | jobStackPush job => exact ⟨Status.success, trivial⟩
  | indeterminate size => exact ⟨⟨List.replicate size 0, List.length_replicate ..⟩, trivial⟩
  | _ => exact ⟨(), trivial⟩

/-- The bytes a call delivered to a socket. -/
def sentOn (socket : Socket) : Event Resp → List UInt8
  | ⟨.send socket' bytes, answer⟩ =>
      match (answer : Option { n : ℕ // 0 < n ∧ n ≤ bytes.length }) with
      | some n => if socket' = socket then bytes.take n.val else []
      | none => []
  | _ => []

def bytesSent (socket : Socket) (tr : Trace) : List UInt8 := tr.flatMap (sentOn socket)

@[simp] theorem bytesSent_nil (socket : Socket) : bytesSent socket [] = [] := rfl

theorem bytesSent_append (socket : Socket) (tr tr' : Trace) :
    bytesSent socket (tr ++ tr') = bytesSent socket tr ++ bytesSent socket tr' :=
  List.flatMap_append

def SendsTo (socket : Socket) (op : Op) : Prop :=
  op = .peek socket ∨ ∃ bytes, op = .send socket bytes

def SendsEnd (socket : Socket) (bytes : List UInt8) (op : Op) : Prop :=
  op = .peek socket ∨ ∃ rest, op = .send socket rest ∧ rest <:+ bytes

/-- The loop sends what is left of its bytes. -/
theorem sendLoop_sends (socket : Socket) (fuel : ℕ) (bytes : List UInt8) :
    (sendLoop socket fuel bytes).Calls (SendsEnd socket bytes) := by
  induction fuel generalizing bytes with
  | zero => cases bytes <;> trivial
  | succ fuel ih =>
      cases bytes with
      | nil => trivial
      | cons c rest =>
          simp only [sendLoop, peek_bind, send_bind, Prog.calls_call]
          refine ⟨.inl rfl, fun alive ↦ ?_⟩
          split
          · trivial
          · refine ⟨.inr ⟨_, rfl, List.suffix_rfl⟩, fun sent ↦ ?_⟩
            cases sent with
            | none => trivial
            | some n =>
                refine (ih _).mono fun op hop ↦ hop.imp_right ?_
                rintro ⟨rest', rfl, hrest⟩
                exact ⟨rest', rfl, hrest.trans (List.drop_suffix _ _)⟩

theorem sendLoop_calls (socket : Socket) (fuel : ℕ) (bytes : List UInt8) :
    (sendLoop socket fuel bytes).Calls (SendsTo socket) := by
  refine (sendLoop_sends socket fuel bytes).mono fun op hop ↦ hop.imp_right ?_
  rintro ⟨rest, rfl, -⟩
  exact ⟨rest, rfl⟩

theorem trySendInChunks_calls (socket : Socket) (buffer : List UInt8) (length : ℤ) :
    (trySendInChunks socket buffer length).Calls (SendsTo socket) := by
  unfold trySendInChunks
  split
  · trivial
  · exact sendLoop_calls _ _ _

section

variable {σ : Type} {P : Protocol Resp σ} {s s' : σ} {tr : Trace} {socket : Socket}
  {out : Except Fault Status} {rest : List UInt8} {fuel : ℕ}

/-- The sending loop delivers a prefix of its bytes, and all of them when it reports
success. -/
theorem run_sendLoop (h : P.Run s (sendLoop socket fuel rest) tr s' out)
    (hfuel : rest.length ≤ fuel) :
    (∀ e ∈ tr, SendsTo socket e.1) ∧ bytesSent socket tr <+: rest ∧
      (out = .ok .success ∧ bytesSent socket tr = rest ∨ out = .ok .fail) := by
  induction fuel generalizing rest s tr with
  | zero =>
      obtain rfl : rest = [] := List.length_eq_zero_iff.mp (by omega)
      simp only [sendLoop, run_ret] at h
      obtain ⟨rfl, -, rfl⟩ := h
      simp
  | succ fuel ih =>
      cases rest with
      | nil =>
          simp only [sendLoop, run_ret] at h
          obtain ⟨rfl, -, rfl⟩ := h
          simp
      | cons c rest =>
          simp only [sendLoop, peek_bind, send_bind, run_call] at h
          obtain ⟨alive, tr, -, rfl, h⟩ := h
          split at h
          next =>
            obtain ⟨rfl, -, rfl⟩ := run_ret.mp h
            simp [SendsTo, bytesSent, sentOn]
          next =>
            rw [run_call] at h
            obtain ⟨sent, tr, -, rfl, h⟩ := h
            cases sent with
            | none =>
                obtain ⟨rfl, -, rfl⟩ := run_ret.mp h
                simp [SendsTo, bytesSent, sentOn]
            | some n =>
                have hpos := n.property.1
                obtain ⟨hto, hpre, hout⟩ := ih h (by
                  simp only [List.length_drop, List.length_cons] at hfuel ⊢
                  omega)
                have hsplit : c :: rest = (c :: rest).take n.val ++ (c :: rest).drop n.val :=
                  (List.take_append_drop _ _).symm
                have hsent : bytesSent socket (⟨.peek socket, alive⟩ ::
                    ⟨.send socket (c :: rest), some n⟩ :: tr) =
                      (c :: rest).take n.val ++ bytesSent socket tr := by
                  simp [bytesSent, sentOn]
                refine ⟨?_, ?_, ?_⟩
                · intro e he
                  rcases List.mem_cons.mp he with rfl | he
                  · exact .inl rfl
                  · rcases List.mem_cons.mp he with rfl | he
                    · exact .inr ⟨_, rfl⟩
                    · exact hto e he
                · rw [hsent]
                  conv_rhs => rw [hsplit]
                  exact (List.prefix_append_right_inj _).mpr hpre
                · rw [hsent]
                  rcases hout with ⟨rfl, hall⟩ | rfl
                  · exact .inl ⟨rfl, by rw [hall, ← hsplit]⟩
                  · exact .inr rfl

theorem run_trySendInChunks {buffer : List UInt8} {length : ℤ}
    (h : P.Run s (trySendInChunks socket buffer length) tr s' out) :
    (∀ e ∈ tr, SendsTo socket e.1) ∧ bytesSent socket tr <+: buffer.take length.toNat ∧
      (out = .ok .success ∨ out = .ok .fail) := by
  unfold trySendInChunks at h
  split at h
  next =>
    obtain ⟨rfl, -, rfl⟩ := run_ret.mp h
    simp
  next =>
    obtain ⟨hto, hpre, hout⟩ := run_sendLoop h (List.length_take_le _ _)
    exact ⟨hto, hpre, hout.imp And.left id⟩

/-- A send that reports success to a socket that is one has sent everything. -/
theorem run_trySendInChunks_success {buffer : List UInt8} (hfd : socket.fd ≠ -1)
    (h : P.Run s (trySendInChunks socket buffer buffer.length) tr s' (.ok .success)) :
    bytesSent socket tr = buffer := by
  rw [trySendInChunks, if_neg hfd, Int.toNat_natCast, List.take_length] at h
  obtain ⟨-, -, ⟨-, hall⟩ | hfail⟩ := run_sendLoop h le_rfl
  · exact hall
  · cases hfail

/-- A send does not halt, so what follows it is reached. -/
theorem run_trySendInChunks_bind {β : Type} {f : Status → Worker β} {buffer : List UInt8}
    {length : ℤ} {outcome : Except Fault β}
    (h : P.Run s (trySendInChunks socket buffer length >>= f) tr s' outcome) :
    ∃ status tr₁ s₁ tr₂, P.Run s (trySendInChunks socket buffer length) tr₁ s₁ (.ok status) ∧
      P.Run s₁ (f status) tr₂ s' outcome ∧ tr = tr₁ ++ tr₂ := by
  rcases h.bind_cases with ⟨fault, hsend, -⟩ | hboth
  · obtain ⟨-, -, hout⟩ := run_trySendInChunks hsend
    simp at hout
  · exact hboth

end

/-! ## Looking for links -/

/-- The calls with which a cached file is scanned for links. -/
def ScansLinks : Op → Prop
  | .fread _ _ => True
  | .fseek _ _ _ => True
  | .jobStackPush _ => True
  | .indeterminate _ => True
  | _ => False

/-- The calls of one search, behind the first look at its buffer. -/
def ReadsFile : Op → Prop
  | .fread _ _ => True
  | .fseek _ _ _ => True
  | _ => False

theorem findHrefLoop_reads (fuel : ℕ) (file : FileHandle) (fileBuffer : List UInt8) :
    (findHrefLoop fuel file fileBuffer).Calls ReadsFile := by
  induction fuel generalizing fileBuffer with
  | zero => trivial
  | succ fuel ih =>
      simp only [findHrefLoop, fread_bind, Prog.calls_call]
      refine ⟨trivial, fun bytes ↦ ?_⟩
      split
      · trivial
      · cases scanHref ((bytes.val ++ fileBuffer.drop bytes.val.length).length + 1)
            (bytes.val ++ fileBuffer.drop bytes.val.length)
            (CString.strchr (bytes.val ++ fileBuffer.drop bytes.val.length) 0 104) with
        | error fault => trivial
        | ok result =>
            cases result with
            | noLink => exact ih _
            | unclosed => trivial
            | link start closingQuote =>
                simp only [Prog.lift_ok, Prog.ret_bind]
                split
                · trivial
                · exact ⟨trivial, fun _ ↦ trivial⟩

theorem findHrefLoop_calls (fuel : ℕ) (file : FileHandle) (fileBuffer : List UInt8) :
    (findHrefLoop fuel file fileBuffer).Calls ScansLinks := by
  apply (findHrefLoop_reads fuel file fileBuffer).mono
  intro op hop
  cases op <;> trivial

theorem findHref_calls (fuel : ℕ) (file : FileHandle) : (findHref fuel file).Calls ScansLinks :=
  ⟨trivial, fun _ ↦ findHrefLoop_calls _ _ _⟩

theorem dispatchLoop_calls (fuel : ℕ) (file : FileHandle) (hostname : List UInt8) :
    (dispatchLoop fuel file hostname).Calls ScansLinks := by
  induction fuel with
  | zero => trivial
  | succ fuel ih =>
      refine (findHref_calls fuel file).bind fun result ↦ ?_
      cases result with
      | finished => trivial
      | fail => exact ih
      | success foundLink =>
          simp only
          split
          · exact ⟨trivial, fun _ ↦ ih⟩
          · exact ih

theorem dispatchPrefetchJobs_calls (fuel : ℕ) (cachedResponse : Option FileHandle)
    (hostname : List UInt8) :
    (dispatchPrefetchJobs fuel cachedResponse hostname).Calls ScansLinks := by
  cases cachedResponse with
  | none => trivial
  | some file => exact ⟨trivial, fun _ ↦ dispatchLoop_calls _ _ _⟩

/-! ## Reading a request -/

section

variable {σ : Type} {P : Protocol Resp σ} {s s' : σ} {tr : Trace} {fuel : ℕ} {locals : Locals}
  {table : BlockTable} {job : Job} {out : Except Fault (JobStatus × Job)}

/-- All that a call can do once it has its request. -/
inductive ParsesJob (P : Protocol Resp σ) (fuel : ℕ) (locals : Locals) (table : BlockTable)
    (job : Job) (s : σ) : Trace → σ → Except Fault (JobStatus × Job) → Prop
  | faults {s' : σ} (fault : Fault)
      (hparse : parseRequestString job.request locals.parseOut = .error fault) :
      ParsesJob P fuel locals table job s [] s' (.error fault)
  | waits {s' : σ} (request : List UInt8) (parsed : ParseOut)
      (hparse : parseRequestString job.request locals.parseOut = .ok (.fail, request, parsed))
      (htail : job.requestTail ≠ jobRequestBufferSize - 1) :
      ParsesJob P fuel locals table job s [] s' (.ok (.enqueue, { job with request := request }))
  | responds {tr : Trace} {s' : σ} (parsed : Status × List UInt8 × ParseOut)
      (responded : Except Fault Unit)
      (hparse : parseRequestString job.request locals.parseOut = .ok parsed)
      (hrun : P.Run s (respond fuel locals table { job with request := parsed.2.1 } parsed.2.2
        (if parsed.1 = .fail then .malformed else parsed.2.2.version)) tr s' responded) :
      ParsesJob P fuel locals table job s tr s'
        (responded.map fun _ ↦ (.terminate, { job with request := parsed.2.1 }))

theorem run_parseJob_cases (h : P.Run s (parseJob fuel locals table job) tr s' out) :
    ParsesJob P fuel locals table job s tr s' out := by
  unfold parseJob at h
  cases hparse : parseRequestString job.request locals.parseOut with
  | error fault =>
      simp only [hparse, Prog.lift_error, Prog.halt_bind, run_halt] at h
      obtain ⟨rfl, -, rfl⟩ := h
      exact .faults fault hparse
  | ok parsed =>
      simp only [hparse, Prog.lift_ok, Prog.ret_bind] at h
      split at h
      next hwait =>
        obtain ⟨status, request, out'⟩ := parsed
        obtain ⟨rfl, -, rfl⟩ := run_ret.mp h
        obtain rfl : status = .fail := hwait.1
        exact .waits request out' hparse hwait.2
      next =>
        rcases h.bind_cases with ⟨fault, hrespond, rfl⟩ | ⟨⟨⟩, tr, s₁, tr', hrespond, hend, rfl⟩
        · exact .responds parsed (.error fault) hparse hrespond
        · obtain ⟨rfl, rfl, rfl⟩ := run_ret.mp hend
          rw [List.append_nil]
          exact .responds parsed (.ok ()) hparse hrespond

/-- All that a call can do once the job is known not to be expired. -/
inductive ReadsAndParses (P : Protocol Resp σ) (fuel : ℕ) (locals : Locals) (table : BlockTable)
    (job : Job) (s : σ) : Trace → σ → Except Fault (JobStatus × Job) → Prop
  | prefetch {tr : Trace} {s' : σ} {out : Except Fault (JobStatus × Job)}
      (hfd : job.clientSocketFd = -1)
      (hrun : P.Run s (parseJob fuel locals table job) tr s' out) :
      ReadsAndParses P fuel locals table job s tr s' out
  | noData {s' : σ} (hfd : job.clientSocketFd ≠ -1)
      (hnone : P.answers s (.recv (.client job.clientSocketFd)
        (jobRequestBufferSize - job.requestTail) true) .error) :
      ReadsAndParses P fuel locals table job s
        [⟨.recv (.client job.clientSocketFd) (jobRequestBufferSize - job.requestTail) true, .error⟩]
        s' (.ok (.enqueue, job))
  | closed {s' : σ} (hfd : job.clientSocketFd ≠ -1)
      (hfits : [].length ≤ jobRequestBufferSize - job.requestTail)
      (hbytes : P.answers s (.recv (.client job.clientSocketFd)
        (jobRequestBufferSize - job.requestTail) true) (.data [] hfits)) :
      ReadsAndParses P fuel locals table job s
        [⟨.recv (.client job.clientSocketFd) (jobRequestBufferSize - job.requestTail) true,
          .data [] hfits⟩] s' (.ok (.terminate, job))
  | data {tr : Trace} {s' : σ} {out : Except Fault (JobStatus × Job)}
      (hfd : job.clientSocketFd ≠ -1) (bytes : List UInt8) (now : ℕ) (hne : bytes ≠ [])
      (hfits : bytes.length ≤ jobRequestBufferSize - job.requestTail)
      (hbytes : P.answers s (.recv (.client job.clientSocketFd)
        (jobRequestBufferSize - job.requestTail) true) (.data bytes hfits))
      (htime : P.answers (P.next s (.recv (.client job.clientSocketFd)
        (jobRequestBufferSize - job.requestTail) true) (.data bytes hfits)) .time now)
      (hrun : P.Run (P.next (P.next s (.recv (.client job.clientSocketFd)
        (jobRequestBufferSize - job.requestTail) true) (.data bytes hfits)) .time now)
          (parseJob fuel locals table (receiveRequest job bytes now)) tr s' out) :
      ReadsAndParses P fuel locals table job s
        (⟨.recv (.client job.clientSocketFd) (jobRequestBufferSize - job.requestTail) true,
          .data bytes hfits⟩ :: ⟨.time, now⟩ :: tr) s' out

theorem run_readAndParseJob_cases (h : P.Run s (readAndParseJob fuel locals table job) tr s' out) :
    ReadsAndParses P fuel locals table job s tr s' out := by
  unfold readAndParseJob at h
  split at h
  next hfd => exact .prefetch hfd h
  next hfd =>
    simp only [recv_bind, time_bind, run_call] at h
    obtain ⟨received, tr, hreceived, rfl, h⟩ := h
    cases received with
    | error =>
        obtain ⟨rfl, rfl, rfl⟩ := run_ret.mp h
        exact .noData hfd hreceived
    | data bytes hfits =>
        rw [if_neg (by simp [RecvResult.length])] at h
        by_cases hclosed : bytes = []
        · subst hclosed
          rw [if_pos (by simp [RecvResult.length])] at h
          obtain ⟨rfl, rfl, rfl⟩ := run_ret.mp h
          exact .closed hfd hfits hreceived
        · rw [if_neg (by simp [RecvResult.length, hclosed]), run_call] at h
          obtain ⟨now, tr, hnow, rfl, h⟩ := h
          exact .data hfd bytes now hclosed hfits hreceived hnow h

/-- A job with a deadline is read only while the deadline is not over. -/
theorem run_processJob_cases (h : P.Run s (processJob fuel locals table job) tr s' out) :
    (job.expirationTime = 0 ∧ P.Run s (readAndParseJob fuel locals table job) tr s' out) ∨
      job.expirationTime ≠ 0 ∧ ∃ now tr', P.answers s .time now ∧ tr = ⟨.time, now⟩ :: tr' ∧
        (job.expirationTime < unsignedTime now ∧ tr' = [] ∧ out = .ok (.terminate, job) ∨
          unsignedTime now ≤ job.expirationTime ∧
            P.Run (P.next s .time now) (readAndParseJob fuel locals table job) tr' s' out) := by
  unfold processJob at h
  split at h
  next hzero => exact .inl ⟨hzero, h⟩
  next hset =>
    simp only [time_bind, run_call] at h
    obtain ⟨now, tr, hnow, rfl, h⟩ := h
    refine .inr ⟨hset, now, tr, hnow, rfl, ?_⟩
    split at h
    next hexpired =>
      obtain ⟨rfl, -, rfl⟩ := run_ret.mp h
      exact .inl ⟨hexpired, rfl, rfl⟩
    next hlive => exact .inr ⟨not_lt.mp hlive, h⟩

end

end HttpProxy
