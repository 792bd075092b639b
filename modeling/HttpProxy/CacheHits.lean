import HttpProxy.FileLoops
import HttpProxy.Traces

/-!
# Serving a file from the cache

`handle_valid_request` after the cache has answered `should_read` and the file could be opened.
Reads of 4096 bytes on the outside, sends of what the socket takes on the inside: what the
client has been sent and what is left of the file make up the file at every step.
-/

namespace HttpProxy

open CString Interaction Protocol

variable {record : RecordRef} {file : FileHandle} {fuel : ℕ} {fd : ℤ} {job : Job}
  {path hostname content rest : List UInt8}

/-- The cache file and the position in it, the bytes the client has taken, and what has been
closed. -/
structure HitState where
  file : OpenFile
  sent : List UInt8
  fclosed : List FileHandle
  closed : List (RecordRef × ActionStatus)

def HitState.next (s : HitState) : (op : Op) → Resp op → HitState
  | .fopen _ _, _ => { s with file := { s.file with position := 0 } }
  | .fread _ _, bytes =>
      { s with file := { s.file with position := s.file.position + bytes.val.length } }
  | .fseek _ whence offset, _ => { s with file := s.file.seek whence offset }
  | .send (.client _) bytes, some n => { s with sent := s.sent ++ bytes.take n.val }
  | .fclose file, _ => { s with fclosed := s.fclosed ++ [file] }
  | .cacheRecordClose record status, _ => { s with closed := s.closed ++ [(record, status)] }
  | _, _ => s

/-- The cache lets the worker read, and the file opens.  The client takes as much as it likes of
what it is sent, or nothing, and may be gone at any look. -/
def cacheHit (record : RecordRef) (file : FileHandle) : Protocol Resp HitState where
  requires _ _ := True
  answers s op answer :=
    match op, answer with
    | .cacheRecordGetOrCreate _, grant => grant = .shouldRead record
    | .fopen _ _, opened => opened = some file
    | .fread _ size, bytes => bytes.val = s.file.read size
    | _, _ => True
  next := HitState.next

/-! ## Sending -/

/-- A success has sent all of the bytes, a failure a part from the front; nothing else moves. -/
def SentFrom (rest : List UInt8) (s s' : HitState) (out : Except Fault Status) : Prop :=
  out = .ok .success ∧ s' = { s with sent := s.sent ++ rest } ∨
    out = .ok .fail ∧ ∃ part, part <+: rest ∧ s' = { s with sent := s.sent ++ part }

theorem keeps_sendLoop_hit {s : HitState} (hfuel : rest.length ≤ fuel) :
    (cacheHit record file).Keeps (sendLoop (.client fd) fuel rest) (SentFrom rest s) s := by
  induction fuel generalizing s rest with
  | zero =>
      obtain rfl : rest = [] := List.length_eq_zero_iff.mp (by omega)
      exact .inl ⟨rfl, by rw [List.append_nil]⟩
  | succ fuel ih =>
      cases rest with
      | nil => exact .inl ⟨rfl, by rw [List.append_nil]⟩
      | cons c rest =>
          have hnothing : SentFrom (c :: rest) s s (.ok .fail) :=
            .inr ⟨rfl, [], List.nil_prefix, by rw [List.append_nil]⟩
          simp only [sendLoop, peek_bind, send_bind, keeps_call]
          refine ⟨trivial, fun alive _ ↦ ?_⟩
          split
          · exact hnothing
          · rw [keeps_call]
            refine ⟨trivial, fun sent _ ↦ ?_⟩
            cases sent with
            | none => exact hnothing
            | some n =>
                have hpos := n.property.1
                have hsplit : (c :: rest).take n.val ++ (c :: rest).drop n.val = c :: rest :=
                  List.take_append_drop _ _
                refine (ih ?_).mono ?_
                · simp only [List.length_drop, List.length_cons] at hfuel ⊢
                  omega
                · rintro s' out (⟨rfl, rfl⟩ | ⟨rfl, part, hpart, rfl⟩)
                  · refine .inl ⟨rfl, ?_⟩
                    simp only [cacheHit, HitState.next, List.append_assoc, hsplit]
                  · refine .inr ⟨rfl, (c :: rest).take n.val ++ part, ?_, ?_⟩
                    · obtain ⟨more, hmore⟩ := hpart
                      exact ⟨more, by rw [List.append_assoc, hmore, hsplit]⟩
                    · simp only [cacheHit, HitState.next, List.append_assoc]

theorem keeps_trySendInChunks_hit {s : HitState} (hfd : fd ≠ -1) (bytes : List UInt8) :
    (cacheHit record file).Keeps (trySendInChunks (.client fd) bytes bytes.length)
      (SentFrom bytes s) s := by
  rw [trySendInChunks, if_neg (show (Socket.client fd).fd ≠ -1 from hfd), Int.toNat_natCast,
    List.take_length]
  exact keeps_sendLoop_hit le_rfl

/-! ## Reading and sending -/

theorem read_append_drop (file : OpenFile) (size : ℕ) :
    file.read size ++ file.content.drop (file.position + (file.read size).length) =
      file.content.drop file.position := by
  rw [← List.drop_drop, OpenFile.read]
  generalize file.content.drop file.position = rest
  rcases Nat.le_total size rest.length with hle | hle
  · rw [List.length_take_of_le hle, List.take_append_drop]
  · rw [List.take_of_length_le hle, List.drop_length, List.append_nil]

/-- A success has delivered the rest of the file, a failure a part of it from the front. -/
def Delivers (s s' : HitState) (out : Except Fault Status) : Prop :=
  s'.file.content = s.file.content ∧ s'.fclosed = s.fclosed ∧ s'.closed = s.closed ∧
    ∃ part, s'.sent = s.sent ++ part ∧
      (out = .ok .success ∧ part = s.file.content.drop s.file.position ∨
        out = .ok .fail ∧ part <+: s.file.content.drop s.file.position)

theorem keeps_sendCachedLoop_hit {s : HitState} (hfd : fd ≠ -1) (hfuel : s.file.left < fuel) :
    (cacheHit record file).Keeps (sendCachedLoop fuel (.client fd) file) (Delivers s) s := by
  induction fuel generalizing s with
  | zero => omega
  | succ fuel ih =>
      simp only [sendCachedLoop, fread_bind, keeps_call]
      refine ⟨trivial, fun bytes hbytes ↦ ?_⟩
      have hread : s.file.read jobRequestBufferSize = bytes.val := hbytes.symm
      have hlength := length_read s.file jobRequestBufferSize
      have hsplit := read_append_drop s.file jobRequestBufferSize
      rw [hread] at hlength hsplit
      split
      next hnil =>
        rw [hnil, List.nil_append, List.length_nil, Nat.add_zero] at hsplit
        have hend : s.file.content.drop s.file.position = [] := by
          rw [List.drop_eq_nil_iff]
          simp only [hnil, List.length_nil, OpenFile.left, jobRequestBufferSize] at hlength
          omega
        refine ⟨rfl, rfl, rfl, [], (List.append_nil _).symm, .inl ⟨rfl, ?_⟩⟩
        exact hend.symm
      next hne =>
        have hpos : 0 < bytes.val.length := List.length_pos_iff.mpr hne
        apply (keeps_trySendInChunks_hit hfd bytes.val).bind
        · rintro s₁ status (⟨hstatus, rfl⟩ | ⟨hstatus, part, hpart, rfl⟩)
          · obtain rfl := Except.ok.inj hstatus
            rw [if_neg (by decide)]
            refine (ih ?_).mono ?_
            · simp only [OpenFile.left, cacheHit, HitState.next] at hlength hfuel ⊢
              omega
            · rintro s' out ⟨hcontent, hfclosed, hclosed, part, hsent, hout⟩
              refine ⟨hcontent, hfclosed, hclosed, bytes.val ++ part, ?_, ?_⟩
              · rw [hsent]
                simp only [cacheHit, HitState.next, List.append_assoc]
              · rw [← hsplit]
                refine hout.imp (And.imp_right ?_) (And.imp_right ?_)
                · rintro rfl
                  rfl
                · exact fun hpart ↦ (List.prefix_append_right_inj _).mpr hpart
          · obtain rfl := Except.ok.inj hstatus
            rw [if_pos rfl]
            refine ⟨rfl, rfl, rfl, part, rfl, .inr ⟨rfl, ?_⟩⟩
            rw [← hsplit]
            exact hpart.trans (List.prefix_append _ _)
        · rintro s₁ fault (⟨⟨⟩, -⟩ | ⟨⟨⟩, -⟩)

/-! ## Looking for links -/

/-- The file alone, as the surroundings of a scan. -/
def HitState.scan (s : HitState) : RelayState := ⟨[], [], [], false, s.file⟩

/-- A scan ends or meets a link that is too long; it closes nothing and sends nothing. -/
theorem keeps_dispatchPrefetchJobs_hit {s : HitState} (hfuel : s.file.content.length + 1 < fuel) :
    (cacheHit record file).Keeps (dispatchPrefetchJobs fuel (some file) hostname)
      (fun s' out ↦ (out = .ok () ∨ out = .error .outOfBounds) ∧ s'.sent = s.sent ∧
        s'.fclosed = s.fclosed ∧ s'.closed = s.closed) s := by
  have hends : (cacheHit record file).Keeps (dispatchPrefetchJobs fuel (some file) hostname)
      (fun s' out ↦ s'.scan.serverClosed = s.scan.serverClosed ∧
        (out = .ok () ∨ out = .error .outOfBounds)) s := by
    have hscan : (relaying (.shouldRead record) none false).Keeps
        (dispatchPrefetchJobs fuel (some file) hostname)
        (fun t out ↦ t.serverClosed = s.scan.serverClosed ∧
          (out = .ok () ∨ out = .error .outOfBounds)) s.scan :=
      keeps_dispatchPrefetchJobs_ends hfuel
    refine Keeps.comap (t := s) HitState.scan (dispatchPrefetchJobs_calls _ _ _)
      (fun _ _ _ _ ↦ trivial) ?_ ?_ hscan
    · intro t op r hop hr
      cases op <;> first | exact hr | cases hop
    · intro t op r hop
      cases op <;> first | rfl | cases hop
  have hquiet : (cacheHit record file).Keeps (dispatchPrefetchJobs fuel (some file) hostname)
      (fun s' _ ↦ (s'.sent, s'.fclosed, s'.closed) = (s.sent, s.fclosed, s.closed)) s := by
    refine keeps_of_calls (fun s : HitState ↦ (s.sent, s.fclosed, s.closed))
      (dispatchPrefetchJobs_calls _ _ _) (fun _ _ _ ↦ trivial) ?_
    intro t op hop r
    cases op <;> first | rfl | cases hop
  apply (hends.and hquiet).mono
  rintro s' out ⟨⟨-, hout⟩, hsame⟩
  simp only [Prod.mk.injEq] at hsame
  exact ⟨hout, hsame⟩

/-! ## The whole branch -/

/-- What a request that hits the cache has done at its end: the bytes the client has taken are
the file or, for a failure, a part of it from the front; the file and the grant have been closed
once, so the record has one reader less. -/
structure HitServed (content : List UInt8) (record : RecordRef) (file : FileHandle)
    (s' : HitState) (status : Status) : Prop where
  success : status = .success → s'.sent = content
  fail : status = .fail → s'.sent <+: content
  returned : status = .success ∨ status = .fail
  fclosed : s'.fclosed = [file]
  closed : s'.closed = [(record, .shouldRead)]
  readers : ∀ entry : CacheRecord, (s'.closed.foldl
    (fun entry close ↦ cacheRecordUpdate entry close.2) entry).readers = entry.readers - 1

/-- The run was stopped inside `dispatch_prefetch_jobs`. -/
def StopsInScan (record : RecordRef) (file : FileHandle) (fuel : ℕ) (hostname : List UInt8)
    (tr : Trace) (s' : HitState) : Prop :=
  ∃ s₁ tr₁ tr₂, tr = tr₁ ++ tr₂ ∧ (cacheHit record file).Run s₁
    (dispatchPrefetchJobs fuel (some file) hostname) tr₂ s' (.error .outOfBounds)

theorem HitServed.of_closed {s : HitState} {status : Status} (hfclosed : s.fclosed = [])
    (hclosed : s.closed = []) (hsuccess : status = .success → s.sent = content)
    (hfail : status = .fail → s.sent <+: content)
    (hreturned : status = .success ∨ status = .fail) :
    HitServed content record file
      { s with fclosed := s.fclosed ++ [file], closed := s.closed ++ [(record, .shouldRead)] }
      status := by
  refine ⟨hsuccess, hfail, hreturned, ?_, ?_, fun entry ↦ ?_⟩
  · rw [hfclosed, List.nil_append]
  · rw [hclosed, List.nil_append]
  · simp only [hclosed, List.nil_append, List.foldl_cons, List.foldl_nil, cacheRecordUpdate]

theorem run_serveCached_hit {tr : Trace} {s s' : HitState} {out : Except Fault Status}
    (hfd : job.clientSocketFd ≠ -1) (hfuel : content.length + 1 < fuel)
    (hs : s = ⟨⟨content, 0⟩, [], [], []⟩)
    (h : (cacheHit record file).Run s (serveCached fuel job record file hostname) tr s' out) :
    (∃ status, out = .ok status ∧ HitServed content record file s' status) ∨
      out = .error .outOfBounds ∧ s'.sent = content ∧
        StopsInScan record file fuel hostname tr s' := by
  subst hs
  have hleft : (OpenFile.mk content 0).left < fuel := by
    simp only [OpenFile.left]
    omega
  have hloop : (cacheHit record file).Keeps
      (sendCachedLoop fuel (.client job.clientSocketFd) file)
      (Delivers ⟨⟨content, 0⟩, [], [], []⟩) ⟨⟨content, 0⟩, [], [], []⟩ :=
    keeps_sendCachedLoop_hit hfd hleft
  rcases h.bind_cases with ⟨fault, hrun, -⟩ | ⟨status, tr₁, s₁, tr₂, hrun, h, rfl⟩
  · obtain ⟨-, -, -, part, -, ⟨⟨⟩, -⟩ | ⟨⟨⟩, -⟩⟩ := hrun.keeps hloop
  · obtain ⟨hcontent, hfclosed, hclosed, part, hsent, hout⟩ := hrun.keeps hloop
    rw [List.nil_append] at hsent
    rcases hout with ⟨hstatus, hpart⟩ | ⟨hstatus, hpart⟩
    · obtain rfl := Except.ok.inj hstatus
      rw [if_neg (by decide)] at h
      have hall : s₁.sent = content := by
        rw [hsent, hpart, List.drop_zero]
      have hfuel₁ : s₁.file.content.length + 1 < fuel := by
        rw [hcontent]
        exact hfuel
      have hscan : (cacheHit record file).Keeps
          (dispatchPrefetchJobs fuel (some file) hostname)
          (fun s' out ↦ (out = .ok () ∨ out = .error .outOfBounds) ∧ s'.sent = s₁.sent ∧
            s'.fclosed = s₁.fclosed ∧ s'.closed = s₁.closed) s₁ :=
        keeps_dispatchPrefetchJobs_hit hfuel₁
      rcases h.bind_cases with ⟨fault, hrun₂, rfl⟩ | ⟨_, tr₃, s₂, tr₄, hrun₂, hclose, rfl⟩
      · obtain ⟨hfault, hsent₂, -, -⟩ := hrun₂.keeps hscan
        obtain rfl : fault = .outOfBounds := by simpa using hfault
        exact .inr ⟨rfl, hsent₂.trans hall, s₁, tr₁, tr₂, rfl, hrun₂⟩
      · obtain ⟨-, hsent₂, hfclosed₂, hclosed₂⟩ := hrun₂.keeps hscan
        simp only [fclose_bind, cacheRecordClose_bind, run_call, run_ret] at hclose
        obtain ⟨_, _, -, -, _, _, -, -, -, rfl, rfl⟩ := hclose
        refine .inl ⟨.success, rfl, ?_⟩
        exact HitServed.of_closed (s := s₂) (hfclosed₂.trans hfclosed) (hclosed₂.trans hclosed)
          (fun _ ↦ hsent₂.trans hall) (by simp) (.inl rfl)
    · obtain rfl := Except.ok.inj hstatus
      rw [if_pos rfl] at h
      simp only [fclose_bind, cacheRecordClose_bind, run_call, run_ret] at h
      obtain ⟨_, _, -, -, _, _, -, -, -, rfl, rfl⟩ := h
      refine .inl ⟨.fail, rfl, ?_⟩
      refine HitServed.of_closed (s := s₁) hfclosed hclosed (by simp) (fun _ ↦ ?_) (.inr rfl)
      rw [hsent]
      exact hpart

theorem cacheHit_total (s : HitState) (op : Op) : ∃ r, (cacheHit record file).answers s op r := by
  cases op with
  | cacheRecordGetOrCreate url => exact ⟨.shouldRead record, rfl⟩
  | fopen path mode => exact ⟨some file, rfl⟩
  | fread file size => exact ⟨⟨s.file.read size, List.length_take_le _ _⟩, rfl⟩
  | _ =>
      obtain ⟨r, -⟩ := anything_total () _
      exact ⟨r, trivial⟩

end HttpProxy
