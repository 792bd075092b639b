import HttpProxy.HeaderLines
import HttpProxy.RequestBuffer

/-!
# How a request arrives

The parser runs as soon as the first line is there, on what has come with it.  A client that
sends its header lines later has sent them in vain.
-/

namespace HttpProxy

open CString Interaction Protocol

variable {fuel : ℕ} {locals : Locals} {table : BlockTable} {job left : Job} {tr : Trace}
  {request held chunk : List UInt8} {out : ParseOut}

/-- A request of the usual form that fits into the buffer. -/
structure CompleteRequest (request : List UInt8) : Prop where
  fits : request.length ≤ jobRequestBufferSize
  nul : 0 ∉ request
  lines : ∃ (line : List UInt8) (headers : List (List UInt8)),
    request = line ++ crlf ++ headers.flatMap (· ++ crlf) ++ crlf ∧
      lf ∉ line ∧ ∀ header ∈ headers, header ≠ [] ∧ lf ∉ header

/-- What a call finds: the time, and bytes if some have come. -/
structure Arrival where
  now : ℕ
  chunk : Option (List UInt8)

def Arrival.bytes (arrival : Arrival) : List UInt8 := arrival.chunk.getD []

theorem Arrival.bytes_some (arrival : Arrival) (h : arrival.chunk = some chunk) :
    arrival.bytes = chunk := by
  rw [Arrival.bytes, h, Option.getD_some]

theorem Arrival.bytes_none (arrival : Arrival) (h : arrival.chunk = none) : arrival.bytes = [] := by
  rw [Arrival.bytes, h, Option.getD_none]

/-- A way of cutting the request. -/
structure Cuts (arrivals : List Arrival) (request : List UInt8) : Prop where
  whole : arrivals.flatMap Arrival.bytes = request
  nonempty : ∀ arrival ∈ arrivals, arrival.chunk ≠ some []

def RecvResult.ofChunk (size : ℕ) : Option (List UInt8) → RecvResult size
  | none => .error
  | some bytes => if fits : bytes.length ≤ size then .data bytes fits else .error

def arriving (arrival : Arrival) : Protocol Resp Unit where
  requires _ _ := True
  answers _ op r :=
    match op, r with
    | .recv (.client _) size _, received => received = .ofChunk size arrival.chunk
    | .time, now => now = arrival.now
    | _, _ => True
  next _ _ _ := ()

theorem arriving_total (arrival : Arrival) (s : Unit) (op : Op) :
    ∃ r, (arriving arrival).answers s op r := by
  cases op with
  | time => exact ⟨arrival.now, rfl⟩
  | recv socket size dontWait =>
      cases socket with
      | client fd => exact ⟨_, rfl⟩
      | server fd => exact ⟨.error, trivial⟩
  | _ =>
      obtain ⟨r, -⟩ := anything_total () _
      exact ⟨r, trivial⟩

/-- A job with this deadline is not dropped. -/
def InTime (deadline now : ℕ) : Prop := deadline = 0 ∨ unsignedTime now ≤ deadline

/-- `process_job` is called on the job, in time and with one arrival at each call, until it
does not ask for the job to be pushed back; then `out` is what has been parsed. -/
inductive Served (locals : Locals) (table : BlockTable) : Job → List Arrival → ParseOut → Prop
  | enqueue {job left : Job} {arrival : Arrival} {arrivals : List Arrival} {out : ParseOut}
      {fuel : ℕ} {tr : Trace} (htime : InTime job.expirationTime arrival.now)
      (hrun : (arriving arrival).Run () (processJob fuel locals table job) tr ()
        (.ok (.enqueue, left)))
      (hrest : Served locals table left arrivals out) :
      Served locals table job (arrival :: arrivals) out
  | parse {job : Job} {arrival : Arrival} {arrivals : List Arrival} {out : ParseOut} {fuel : ℕ}
      {tr : Trace} {outcome : Except Fault (JobStatus × Job)} {chunk : List UInt8} {status : Status}
      {left : List UInt8} (htime : InTime job.expirationTime arrival.now)
      (hchunk : arrival.chunk = some chunk)
      (hrun : (arriving arrival).Run () (processJob fuel locals table job) tr () outcome)
      (hlast : ∀ left, outcome ≠ .ok (.enqueue, left))
      (hparse : parseRequestString (receiveRequest job chunk arrival.now).request locals.parseOut =
        .ok (status, left, out)) :
      Served locals table job (arrival :: arrivals) out

/-- What has arrived by the end of the chunk with the first line feed. -/
def arrivedWithLine (held : List UInt8) : List Arrival → List UInt8
  | [] => held
  | arrival :: arrivals =>
      if lf ∈ held ++ arrival.bytes then held ++ arrival.bytes
      else arrivedWithLine (held ++ arrival.bytes) arrivals

/-- The deadline after a call. -/
def Arrival.deadline (arrival : Arrival) (deadline : ℕ) : ℕ :=
  match arrival.chunk with
  | none => deadline
  | some _ => (unsignedTime arrival.now + keepAliveTimeout) % 4294967296

/-- All calls come within the timeout. -/
def AllInTime : ℕ → List Arrival → Prop
  | _, [] => True
  | deadline, arrival :: arrivals =>
      InTime deadline arrival.now ∧ AllInTime (arrival.deadline deadline) arrivals

def headerLines (t : List UInt8) : List (List UInt8) := (completeLines t).tail

/-- The header lines that are complete in two parts of the request say the same, unless the
request line is one after which they are not read. -/
def SeenAlike (request t₁ t₂ : List UInt8) : Prop :=
  ∀ line rest url, request = line ++ lf :: rest → lf ∉ line → HasUrl line url →
    SameHeaders (urlHost url) (headerLines t₁) (headerLines t₂)

/-! ## One call -/

/-- The calls before the parser runs. -/
def ReadsClient : Op → Prop
  | .time => True
  | .recv (.client _) _ _ => True
  | _ => False

/-- Without data the job stays as it is, and with data it is parsed. -/
theorem run_processJob_arriving {arrival : Arrival} {outcome : Except Fault (JobStatus × Job)}
    (hfd : job.clientSocketFd ≠ -1) (htime : InTime job.expirationTime arrival.now)
    (hrun : (arriving arrival).Run () (processJob fuel locals table job) tr () outcome) :
    (arrival.chunk = none → outcome = .ok (.enqueue, job)) ∧
      ∀ chunk, arrival.chunk = some chunk → chunk ≠ [] →
        chunk.length ≤ jobRequestBufferSize - job.requestTail →
          ∃ before after, tr = before ++ after ∧ (∀ e ∈ before, ReadsClient e.1) ∧
            (arriving arrival).Run ()
              (parseJob fuel locals table (receiveRequest job chunk arrival.now)) after ()
              outcome := by
  obtain ⟨clocked, tr, rfl, hclocked, hread⟩ : ∃ clocked tr', tr = clocked ++ tr' ∧
      (∀ e ∈ clocked, ReadsClient e.1) ∧
        (arriving arrival).Run () (readAndParseJob fuel locals table job) tr' () outcome := by
    rcases run_processJob_cases hrun with ⟨-, hread⟩ | ⟨hset, now, tr', hnow, rfl, hcall⟩
    · exact ⟨[], tr, rfl, by simp, hread⟩
    · obtain rfl : now = arrival.now := hnow
      rcases hcall with ⟨hexpired, -, -⟩ | ⟨-, hread⟩
      · exact absurd hexpired (not_lt.mpr (htime.resolve_left hset))
      · exact ⟨[_], tr', rfl, by simp [ReadsClient], hread⟩
  rw [readAndParseJob, if_neg hfd] at hread
  simp only [recv_bind, time_bind, run_call] at hread
  obtain ⟨received, tr, hreceived, rfl, hread⟩ := hread
  obtain rfl : received = .ofChunk _ arrival.chunk := hreceived
  constructor
  · intro hnone
    rw [hnone] at hread
    exact (run_ret.mp hread).2.2
  · intro chunk hchunk hne hfits
    have hdata : RecvResult.ofChunk (jobRequestBufferSize - job.requestTail) arrival.chunk =
        .data chunk hfits := by
      rw [hchunk]
      exact dif_pos hfits
    clear hrun
    rw [hdata, if_neg (by simp [RecvResult.length]),
      if_neg (by simpa [RecvResult.length] using hne)] at hread
    obtain ⟨now, tr, hnow, rfl, hparse⟩ := run_call.mp hread
    obtain rfl : now = arrival.now := hnow
    refine ⟨clocked ++ [_, _], tr, (List.append_assoc _ [_, _] tr).symm, ?_, hparse⟩
    intro e he
    rcases List.mem_append.mp he with he | he
    · exact hclocked e he
    · simp only [List.mem_cons, List.not_mem_nil, or_false] at he
      rcases he with rfl | rfl <;> trivial

/-! ## All calls -/

/-- The first line of a complete request is there before the buffer is full. -/
theorem CompleteRequest.short_of_notMem (hrequest : CompleteRequest request)
    (hheld : held <+: request) (hline : lf ∉ held) : held.length < jobRequestBufferSize - 1 := by
  obtain ⟨line, headers, rfl, -⟩ := hrequest.lines
  have hfits := hrequest.fits
  have hsplit : line ++ crlf ++ headers.flatMap (· ++ crlf) ++ crlf =
      (line ++ [cr]) ++ lf :: (headers.flatMap (· ++ crlf) ++ crlf) := by
    have hcrlf : crlf = [cr, lf] := by decide
    simp [hcrlf]
  have hcrlf : crlf.length = 2 := by decide
  rw [hsplit, prefix_append_cons_iff hline] at hheld
  have hshort := hheld.length_le
  simp only [List.length_append, hcrlf, List.length_singleton,
    jobRequestBufferSize] at hfits hshort ⊢
  omega

/-- What a job holds and what is still to come are the request. -/
structure Arrives (job : Job) (held : List UInt8) (arrivals : List Arrival)
    (request : List UInt8) : Prop where
  socket : job.clientSocketFd ≠ -1
  holds : Holds job held
  line : lf ∉ held
  whole : held ++ arrivals.flatMap Arrival.bytes = request
  nonempty : ∀ arrival ∈ arrivals, arrival.chunk ≠ some []

section

variable {arrival : Arrival} {arrivals : List Arrival}

theorem Arrives.received (h : Arrives job held (arrival :: arrivals) request)
    (hlength : request.length ≤ jobRequestBufferSize) (hnul : 0 ∉ request)
    (hchunk : arrival.chunk = some chunk) :
    Holds (receiveRequest job chunk arrival.now) (held ++ chunk) ∧
      cstr (receiveRequest job chunk arrival.now).request 0 = held ++ chunk ∧
        chunk ≠ [] ∧ chunk.length ≤ jobRequestBufferSize - job.requestTail ∧
          held ++ chunk <+: request := by
  have hbytes := arrival.bytes_some hchunk
  have hinitial : held ++ chunk <+: request := by
    rw [← h.whole, List.flatMap_cons, hbytes, ← List.append_assoc]
    exact List.prefix_append _ _
  have hfits : chunk.length ≤ jobRequestBufferSize - job.requestTail := by
    have hheld := hinitial.length_le.trans hlength
    rw [List.length_append] at hheld
    rw [h.holds.requestTail]
    omega
  have hholds := h.holds.receive hfits arrival.now
  refine ⟨hholds, hholds.string fun hmem ↦ hnul (hinitial.subset hmem), ?_, hfits, hinitial⟩
  rintro rfl
  exact h.nonempty arrival (by simp) hchunk

/-- Without the end of the first line the job goes on to the next arrival. -/
theorem Arrives.waits (h : Arrives job held (arrival :: arrivals) request)
    (hlength : request.length ≤ jobRequestBufferSize) (hnul : 0 ∉ request)
    (hchunk : arrival.chunk = some chunk) (hline : lf ∉ held ++ chunk)
    (hshort : (held ++ chunk).length ≠ jobRequestBufferSize - 1) :
    parseJob fuel locals table (receiveRequest job chunk arrival.now) =
        .ret (.enqueue, receiveRequest job chunk arrival.now) ∧
      Arrives (receiveRequest job chunk arrival.now) (held ++ chunk) arrivals request := by
  obtain ⟨hholds, hstring, -, -, -⟩ := h.received hlength hnul hchunk
  have hbytes := arrival.bytes_some hchunk
  refine ⟨parseJob_waits (by rwa [hstring]) ?_, h.socket, hholds, hline, ?_, ?_⟩
  · rwa [hholds.requestTail]
  · rw [← h.whole, List.flatMap_cons, hbytes, List.append_assoc]
  · exact fun a ha ↦ h.nonempty a (List.mem_cons_of_mem _ ha)

theorem Arrives.silent (h : Arrives job held (arrival :: arrivals) request)
    (hchunk : arrival.chunk = none) : Arrives job held arrivals request := by
  have hbytes := arrival.bytes_none hchunk
  refine ⟨h.socket, h.holds, h.line, ?_, fun a ha ↦ h.nonempty a (List.mem_cons_of_mem _ ha)⟩
  rw [← h.whole, List.flatMap_cons, hbytes, List.nil_append]

/-- The parser reads what has arrived by the end of the chunk with the first line feed. -/
theorem Served.parseText (h : Served locals table job arrivals out)
    (harrives : Arrives job held arrivals request) (hrequest : CompleteRequest request) :
    lf ∈ arrivedWithLine held arrivals ∧ arrivedWithLine held arrivals <+: request ∧
      ∃ status, HttpProxy.parseText (arrivedWithLine held arrivals) locals.parseOut =
        .ok (status, out) := by
  induction h generalizing held with
  | @enqueue job left arrival arrivals out fuel tr htime hrun hrest ih =>
      obtain ⟨hsilent, hdata⟩ := run_processJob_arriving harrives.socket htime hrun
      cases hchunk : arrival.chunk with
      | none =>
          obtain rfl : left = job := by simpa using hsilent hchunk
          have hbytes := arrival.bytes_none hchunk
          simp only [arrivedWithLine, hbytes, List.append_nil, if_neg harrives.line]
          exact ih (harrives.silent hchunk)
      | some chunk =>
          have hbytes := arrival.bytes_some hchunk
          obtain ⟨hholds, hstring, hne, hfits, hinitial⟩ :=
            harrives.received hrequest.fits hrequest.nul hchunk
          obtain ⟨-, tr, -, -, hparse⟩ := hdata chunk hchunk hne hfits
          have hline : lf ∉ held ++ chunk := by
            intro hmem
            exact run_parseJob_line (by rwa [hstring]) hparse left rfl
          have hshort := hrequest.short_of_notMem hinitial hline
          obtain ⟨hwaits, hnext⟩ :=
            harrives.waits hrequest.fits hrequest.nul hchunk hline hshort.ne
          rw [hwaits] at hparse
          obtain ⟨-, -, hleft⟩ := run_ret.mp hparse
          obtain rfl : left = receiveRequest job chunk arrival.now := by simpa using hleft
          simp only [arrivedWithLine, hbytes, if_neg hline]
          exact ih hnext
  | @parse job arrival arrivals out fuel tr outcome chunk status left htime hchunk hrun hlast
      hparse =>
      obtain ⟨-, hdata⟩ := run_processJob_arriving harrives.socket htime hrun
      have hbytes := arrival.bytes_some hchunk
      obtain ⟨hholds, hstring, hne, hfits, hinitial⟩ :=
            harrives.received hrequest.fits hrequest.nul hchunk
      obtain ⟨-, tr, -, -, hrest⟩ := hdata chunk hchunk hne hfits
      have hline : lf ∈ held ++ chunk := by
        by_contra hmem
        have hshort := hrequest.short_of_notMem hinitial hmem
        rw [(harrives.waits hrequest.fits hrequest.nul hchunk hmem hshort.ne).1] at hrest
        exact hlast _ (run_ret.mp hrest).2.2
      simp only [arrivedWithLine, hbytes, if_pos hline]
      have hnul : 0 ∉ held ++ chunk := fun hmem ↦ hrequest.nul (hinitial.subset hmem)
      refine ⟨hline, hinitial, status, ?_⟩
      rw [← hholds.parse hnul, hparse]
      rfl

/-- A request that arrives in time and can be parsed is served. -/
theorem exists_served {status : Status} (harrives : Arrives job held arrivals request)
    (hrequest : CompleteRequest request) (htime : AllInTime job.expirationTime arrivals)
    (hline : lf ∈ arrivedWithLine held arrivals)
    (hparse : HttpProxy.parseText (arrivedWithLine held arrivals) locals.parseOut =
      .ok (status, out)) : Served locals table job arrivals out := by
  induction arrivals generalizing job held with
  | nil => exact absurd hline harrives.line
  | cons arrival arrivals ih =>
      obtain ⟨hnow, hlater⟩ := htime
      obtain ⟨tr, ⟨⟩, outcome, hrun⟩ := exists_run (arriving_total arrival)
        (processJob 0 locals table job) ()
      obtain ⟨hsilent, hdata⟩ := run_processJob_arriving harrives.socket hnow hrun
      cases hchunk : arrival.chunk with
      | none =>
          obtain rfl := hsilent hchunk
          have hbytes := arrival.bytes_none hchunk
          simp only [arrivedWithLine, hbytes, List.append_nil, if_neg harrives.line] at hline hparse
          simp only [Arrival.deadline, hchunk] at hlater
          exact .enqueue hnow hrun (ih (harrives.silent hchunk) hlater hline hparse)
      | some chunk =>
          have hbytes := arrival.bytes_some hchunk
          obtain ⟨hholds, hstring, hne, hfits, hinitial⟩ :=
            harrives.received hrequest.fits hrequest.nul hchunk
          obtain ⟨-, tr', -, -, hrest⟩ := hdata chunk hchunk hne hfits
          simp only [arrivedWithLine, hbytes] at hline hparse
          by_cases hmem : lf ∈ held ++ chunk
          · rw [if_pos hmem] at hparse
            have hnul : 0 ∉ held ++ chunk := fun h ↦ hrequest.nul (hinitial.subset h)
            rw [← hholds.parse hnul] at hparse
            cases hresult : parseRequestString (receiveRequest job chunk arrival.now).request
                locals.parseOut with
            | error fault => simp [hresult, Except.map] at hparse
            | ok parsed =>
                obtain ⟨status', left, out'⟩ := parsed
                simp only [hresult, Except.map, Except.ok.injEq, Prod.mk.injEq] at hparse
                obtain ⟨rfl, rfl⟩ := hparse
                exact .parse hnow hchunk hrun (run_parseJob_line (by rwa [hstring]) hrest) hresult
          · rw [if_neg hmem] at hline hparse
            have hshort := hrequest.short_of_notMem hinitial hmem
            obtain ⟨hwaits, hnext⟩ :=
              harrives.waits hrequest.fits hrequest.nul hchunk hmem hshort.ne
            rw [hwaits] at hrest
            obtain ⟨-, -, rfl⟩ := run_ret.mp hrest
            simp only [Arrival.deadline, hchunk] at hlater
            exact .enqueue hnow hrun (ih hnext hlater hline hparse)

end

/-! ## Two ways of cutting -/

variable {arrivals₁ arrivals₂ : List Arrival} {fd : ℤ} {out₁ out₂ : ParseOut}

theorem Cuts.arrives (h : Cuts arrivals₁ request) (hfd : fd ≠ -1) :
    Arrives (jobConstruct fd) [] arrivals₁ request :=
  ⟨hfd, holds_jobConstruct fd, by simp, h.whole, h.nonempty⟩

/-- Two ways of cutting a request lead to the same if and only if what comes with the first
line says the same. -/
theorem cuts_sameParse_iff (hrequest : CompleteRequest request) (hfd : fd ≠ -1)
    (hcuts₁ : Cuts arrivals₁ request) (hcuts₂ : Cuts arrivals₂ request)
    (h₁ : Served locals table (jobConstruct fd) arrivals₁ out₁)
    (h₂ : Served locals table (jobConstruct fd) arrivals₂ out₂) :
    SameParse out₁ out₂ ↔
      SeenAlike request (arrivedWithLine [] arrivals₁) (arrivedWithLine [] arrivals₂) := by
  obtain ⟨hline₁, hinitial₁, status₁, hparse₁⟩ := h₁.parseText (hcuts₁.arrives hfd) hrequest
  obtain ⟨hline₂, hinitial₂, status₂, hparse₂⟩ := h₂.parseText (hcuts₂.arrives hfd) hrequest
  obtain ⟨line, headers₁, ht₁, hnone₁⟩ := List.eq_append_cons_of_mem hline₁
  obtain ⟨line₂, headers₂, ht₂, hnone₂⟩ := List.eq_append_cons_of_mem hline₂
  obtain ⟨rest₁, hsplit₁⟩ := hinitial₁
  obtain ⟨rest₂, hsplit₂⟩ := hinitial₂
  rw [ht₁] at hsplit₁ hparse₁ ⊢
  rw [ht₂] at hsplit₂ hparse₂ ⊢
  rw [List.append_assoc, List.cons_append] at hsplit₁ hsplit₂
  obtain rfl : line = line₂ := (first_split_unique (hsplit₁.trans hsplit₂.symm) hnone₁ hnone₂).1
  rw [parseText_line headers₁ hnone₁] at hparse₁
  rw [parseText_line headers₂ hnone₁] at hparse₂
  rw [parseLineText_same_iff rfl hparse₁ hparse₂]
  simp only [SeenAlike, headerLines, completeLines_append hnone₁, List.tail_cons]
  constructor
  · intro h line' rest url hrest hnone' hurl
    obtain ⟨rfl, -⟩ := first_split_unique (hrest.symm.trans hsplit₁.symm) hnone' hnone₁
    exact h url hurl
  · exact fun h url hurl ↦ h line _ url hsplit₁.symm hnone₁ hurl

def keepAliveRequest : List UInt8 :=
  text "GET http://a/ HTTP/1.1\r\nProxy-Connection: keep-alive\r\n\r\n"

theorem keepAliveRequest_complete : CompleteRequest keepAliveRequest :=
  ⟨by decide, by decide, text "GET http://a/ HTTP/1.1", [text "Proxy-Connection: keep-alive"],
    by decide, by decide, by decide⟩

/-- The request at once. -/
def atOnce : List Arrival := [⟨100, some keepAliveRequest⟩]

/-- The request line, and after a call without data the rest. -/
def lineFirst : List Arrival :=
  [⟨100, some (text "GET http://a/ HTTP/1.1\r\n")⟩, ⟨101, none⟩,
    ⟨102, some (text "Proxy-Connection: keep-alive\r\n\r\n")⟩]

theorem atOnce_cuts : Cuts atOnce keepAliveRequest := ⟨by decide, by decide⟩

theorem lineFirst_cuts : Cuts lineFirst keepAliveRequest := ⟨by decide, by decide⟩

/-- The keep-alive flag is the one that the parser finds in what came with the first line. -/
theorem exists_served_keepAlive {arrivals : List Arrival} {keepAlive : Bool}
    (hcuts : Cuts arrivals keepAliveRequest) (htime : AllInTime 0 arrivals)
    (hline : lf ∈ arrivedWithLine [] arrivals)
    (hparse : (HttpProxy.parseText (arrivedWithLine [] arrivals) (Locals.parseOut locals)).map
      (fun parsed ↦ parsed.2.proxyKeepAlive) = .ok keepAlive) :
    ∃ out, Served locals [] (jobConstruct 5) arrivals out ∧ out.proxyKeepAlive = keepAlive := by
  cases hresult : HttpProxy.parseText (arrivedWithLine [] arrivals) locals.parseOut with
  | error fault => simp [hresult, Except.map] at hparse
  | ok parsed =>
      simp only [hresult, Except.map, Except.ok.injEq] at hparse
      exact ⟨parsed.2, exists_served (hcuts.arrives (by decide)) keepAliveRequest_complete htime
        hline hresult, hparse⟩

theorem exists_served_atOnce :
    ∃ out, Served ⟨false, .malformed, false, none⟩ [] (jobConstruct 5) atOnce out ∧
      out.proxyKeepAlive = true :=
  exists_served_keepAlive atOnce_cuts ⟨.inl rfl, trivial⟩ (by decide) (by decide +kernel)

theorem exists_served_lineFirst :
    ∃ out, Served ⟨false, .malformed, false, none⟩ [] (jobConstruct 5) lineFirst out ∧
      out.proxyKeepAlive = false :=
  exists_served_keepAlive lineFirst_cuts
    ⟨.inl rfl, .inr (by decide), .inr (by decide), trivial⟩ (by decide) (by decide +kernel)

theorem cuts_sameParse_iff_keepAlive : ∃ out₁ out₂,
    Served ⟨false, .malformed, false, none⟩ [] (jobConstruct 5) atOnce out₁ ∧
      Served ⟨false, .malformed, false, none⟩ [] (jobConstruct 5) lineFirst out₂ ∧
      (SameParse out₁ out₂ ↔ SeenAlike keepAliveRequest (arrivedWithLine [] atOnce)
        (arrivedWithLine [] lineFirst)) := by
  obtain ⟨out₁, h₁, -⟩ := exists_served_atOnce
  obtain ⟨out₂, h₂, -⟩ := exists_served_lineFirst
  exact ⟨out₁, out₂, h₁, h₂, cuts_sameParse_iff keepAliveRequest_complete (by decide) atOnce_cuts
    lineFirst_cuts h₁ h₂⟩

/-- A keep-alive header that comes after the first line is not seen. -/
theorem not_always_sameParse : CompleteRequest keepAliveRequest ∧ Cuts atOnce keepAliveRequest ∧
    Cuts lineFirst keepAliveRequest ∧ ∃ out₁ out₂,
      Served ⟨false, .malformed, false, none⟩ [] (jobConstruct 5) atOnce out₁ ∧
        Served ⟨false, .malformed, false, none⟩ [] (jobConstruct 5) lineFirst out₂ ∧
        ¬SameParse out₁ out₂ := by
  obtain ⟨out₁, h₁, hkeep₁⟩ := exists_served_atOnce
  obtain ⟨out₂, h₂, hkeep₂⟩ := exists_served_lineFirst
  refine ⟨keepAliveRequest_complete, atOnce_cuts, lineFirst_cuts, out₁, out₂, h₁, h₂, fun h ↦ ?_⟩
  have hsame := h.proxyKeepAlive
  rw [hkeep₁, hkeep₂] at hsame
  cases hsame

end HttpProxy
