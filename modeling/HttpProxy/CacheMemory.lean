import HttpProxy.CacheFreshness
import HttpProxy.CacheLookups
import HttpProxy.CacheTransparency
import HttpProxy.PrefetchCalls

/-!
# The cache as a memory of responses

The runs of the proxy with a log of what its lookups were answered.  A lookup is answered from
the cache exactly if the last request that was allowed to write under its key has given its grant
back and was allowed to less than `CACHE_TTL` ago, and it is answered with the response that the
server sent to this request.
-/

namespace HttpProxy

open CString Interaction Protocol Transition ReadersWriter

variable {ttl : ℤ} {md5sum : List UInt8 → List UInt8} {s s' : ProxyState} {w w' : World}
  {request request' : Request} {label : ProxyLabel} {log events since : List CacheEvent}
  {record record' : CacheRecord} {key : List UInt8} {status : ActionStatus} {i j r : ℕ} {t₀ : ℤ}

/-- What a step adds to the log.  A url that is too long is not looked up. -/
def proxyEvents (md5sum : List UInt8 → List UInt8) (_ : ProxyState) (label : ProxyLabel)
    (s' : ProxyState) : List CacheEvent :=
  match label with
  | .call i ⟨.cacheRecordGetOrCreate url, answer⟩ =>
      if url.length > urlMaxLength then []
      else [.answered i (md5sum url) (Grant.action answer) s'.world.clock]
  | .call i ⟨.cacheRecordClose _ _, _⟩ => [.closed i]
  | _ => []

/-- The undisturbed runs of the proxy with the log of their lookups. -/
def proxyHistory (ttl : ℤ) (md5sum : List UInt8 → List UInt8) :
    System (ProxyState × List CacheEvent) ProxyLabel :=
  ((proxySystem ttl md5sum).guarded Undisturbed).logged (proxyEvents md5sum)

/-- What request `i` is served is the response that the server sent to request `j`: it is in the
file as long as it may be read, and has been sent when the file was. -/
def ServedWith (s : ProxyState) (i j : ℕ) : Prop :=
  ∃ reader writer, s.requests[i]? = some reader ∧ s.requests[j]? = some writer ∧
    (∀ record, reader.view.Holds (.shouldRead record) →
      s.world.files (cacheFilePath record) = writer.view.response) ∧
    (reader.prog = .ret .success → reader.view.cached = true →
      reader.view.sent = writer.view.response)

/-- Whether a lookup was answered from the cache is read off the log before it, and what it was
answered with is the response of the last writer. -/
def AnsweredFromMemory (ttl : ℤ) (p : ProxyState × List CacheEvent) : Prop :=
  ∀ before after i key status t, p.2 = before ++ .answered i key status t :: after →
    (status = .shouldRead ↔
      ∃ j t₀ since, LastWrite before key j t₀ since ∧ .closed j ∈ since ∧ t < t₀ + ttl) ∧
    ∀ j t₀ since, LastWrite before key j t₀ since → status = .shouldRead → ServedWith p.1 i j

/-! ## The last write grant -/

theorem LastWrite.unique {j' : ℕ} {t₀' : ℤ} {since' : List CacheEvent}
    (h : LastWrite log key j t₀ since) (h' : LastWrite log key j' t₀' since') :
    j = j' ∧ t₀ = t₀' ∧ since = since' := by
  obtain ⟨⟨earlier, rfl⟩, hlast⟩ := h
  obtain ⟨⟨earlier', hsplit⟩, hlast'⟩ := h'
  rcases List.append_eq_append_iff.mp hsplit with ⟨mid, -, hmid⟩ | ⟨mid, -, hmid⟩
  · cases mid with
    | nil => simpa [and_assoc] using hmid
    | cons e mid =>
        obtain ⟨-, rfl⟩ := List.cons.inj hmid
        exact absurd (by simp) (hlast j' t₀')
  · cases mid with
    | nil => simpa [eq_comm, and_assoc] using hmid
    | cons e mid =>
        obtain ⟨-, rfl⟩ := List.cons.inj hmid
        exact absurd (by simp) (hlast' j t₀)

theorem cacheRecordDecide_shouldRead_iff {now later : ℤ} (h : now ≤ later) :
    (cacheRecordDecide ttl record now later).1 = .shouldRead ↔
      record.writeInProgress = 0 ∧ later < record.expirationTime := by
  unfold cacheRecordDecide
  split
  next hwrite => simp only [reduceCtorEq, false_iff, not_and]; omega
  next =>
    split
    next hread => exact ⟨fun _ ↦ ⟨hread.2, hread.1⟩, fun _ ↦ rfl⟩
    next hread => simp only [reduceCtorEq, false_iff, not_and]; omega

theorem cacheRecordDecide_writeInProgress {now later : ℤ}
    (h : (cacheRecordDecide ttl record now later).1 ≠ .shouldWrite) :
    (cacheRecordDecide ttl record now later).2.writeInProgress = record.writeInProgress := by
  unfold cacheRecordDecide at h ⊢
  split
  next hwrite => simp [if_pos hwrite] at h
  next => split <;> rfl

theorem grantOf_action (record : RecordRef) (status : ActionStatus) :
    (grantOf record status).action = status := by
  cases status <;> rfl

/-- Request `j` is allowed to write record `r`. -/
def ProxyState.Writes (s : ProxyState) (j r : ℕ) : Prop :=
  ∃ request record, s.requests[j]? = some request ∧
    request.view.Holds (.shouldWrite record) ∧ record.address = r

/-- The one grant of a request that may write. -/
theorem ProxyState.Writes.grant_eq {grant : Grant} {ref : RecordRef} (h : s.Writes i r)
    (hi : s.requests[i]? = some request) (hholds : request.view.Holds grant)
    (href : grant.record = some ref) : grant.action = .shouldWrite ∧ ref.address = r := by
  obtain ⟨writer, ref', hi', hwrite, rfl⟩ := h
  obtain rfl := Option.some.inj (hi.symm.trans hi')
  obtain rfl : grant = .shouldWrite ref' := Option.some.inj (hholds.1.symm.trans hwrite.1)
  obtain rfl : ref' = ref := Option.some.inj href
  exact ⟨rfl, rfl⟩

/-- Nothing is taken from a request that has its grant, and its response stays what it is. -/
def ProxyState.KeepsRequests (s s' : ProxyState) : Prop :=
  ∀ (j : ℕ) request, s.requests[j]? = some request → ∃ request', s'.requests[j]? = some request' ∧
    request'.view.response = request.view.response ∧
      (request.view.grant ≠ none → request'.view.grant ≠ none ∧ request'.source = request.source)

/-! ## What a step does -/

/-- All that a step can do to the records, to what they remember and to the log. -/
inductive MemoryChange (ttl : ℤ) (s s' : ProxyState) : List CacheEvent → Prop
  | quiet (hcontent : s'.world.content = s.world.content)
      (hresponses : s'.world.responses = s.world.responses)
      (hwrites : ∀ j r, s.Writes j r → s'.Writes j r) : MemoryChange ttl s s' []
  | create (i : ℕ) (request : Request) (key : List UInt8) (hi : s.requests[i]? = some request)
      (hnew : ∀ record ∈ s.world.content, record.name ≠ key)
      (hcontent : s'.world.content =
        s.world.content ++ [cacheRecordCreate ttl key s'.world.clock])
      (hresponses : s'.world.responses =
        Function.update s.world.responses s.world.content.length request.view.response)
      (hwrites : ∀ j r, s.Writes j r → s'.Writes j r) (hself : s'.Writes i s.world.content.length) :
      MemoryChange ttl s s' [.answered i key .shouldWrite s'.world.clock]
  | decide (i r : ℕ) (request : Request) (record : CacheRecord) (now : ℤ)
      (hi : s.requests[i]? = some request) (hrecord : s.world.content[r]? = some record)
      (hnow : now ≤ s'.world.clock)
      (hcontent : s'.world.content =
        s.world.content.set r (cacheRecordDecide ttl record now s'.world.clock).2)
      (hresponses : s'.world.responses =
        if (cacheRecordDecide ttl record now s'.world.clock).1 = .shouldWrite then
          Function.update s.world.responses r request.view.response else s.world.responses)
      (hwrites : ∀ j r, s.Writes j r → s'.Writes j r)
      (hself : (cacheRecordDecide ttl record now s'.world.clock).1 = .shouldWrite → s'.Writes i r)
      (hread : (cacheRecordDecide ttl record now s'.world.clock).1 = .shouldRead →
        ∃ reader, s'.requests[i]? = some reader ∧ reader.view.grant ≠ none ∧
          reader.source = s.world.responses r) :
      MemoryChange ttl s s'
        [.answered i record.name (cacheRecordDecide ttl record now s'.world.clock).1
          s'.world.clock]
  | close (i : ℕ) (request : Request) (grant : Grant) (ref : RecordRef) (record : CacheRecord)
      (hi : s.requests[i]? = some request) (hholds : request.view.Holds grant)
      (href : grant.record = some ref) (hrecord : s.world.content[ref.address]? = some record)
      (hcontent : s'.world.content =
        s.world.content.set ref.address (cacheRecordUpdate record grant.action))
      (hresponses : s'.world.responses = s.world.responses)
      (hwrites : ∀ j r, j ≠ i → s.Writes j r → s'.Writes j r) : MemoryChange ttl s s' [.closed i]

theorem View.next_response (v : View) (op : Op) (answer : Resp op) :
    (v.next op answer).response = v.response := by
  cases op with
  | recv socket size dontWait => cases socket <;> rfl
  | send socket bytes => cases socket <;> cases answer <;> rfl
  | fopen path mode => cases mode <;> cases answer <;> rfl
  | _ => rfl

theorem View.next_closed {v : View} {op : Op}
    (hop : ∀ ref status, op ≠ .cacheRecordClose ref status) (answer : Resp op) :
    (v.next op answer).closed = v.closed := by
  cases op with
  | cacheRecordClose ref status => exact absurd rfl (hop ref status)
  | recv socket size dontWait => cases socket <;> rfl
  | send socket bytes => cases socket <;> cases answer <;> rfl
  | fopen path mode => cases mode <;> cases answer <;> rfl
  | _ => rfl

theorem ProxyState.Writes.set (h : s.Writes j r) (hi : s.requests[i]? = some request)
    (hkeep : j = i → ∀ ref, request.view.Holds (.shouldWrite ref) →
      request'.view.Holds (.shouldWrite ref)) :
    (⟨w', s.requests.set i request'⟩ : ProxyState).Writes j r := by
  obtain ⟨writer, ref, hj, hholds, haddress⟩ := h
  by_cases hij : j = i
  · subst hij
    obtain rfl := Option.some.inj (hi.symm.trans hj)
    exact ⟨request', ref, getElem?_set_here hi _, hkeep rfl ref hholds, haddress⟩
  · exact ⟨writer, ref, (List.getElem?_set_ne (Ne.symm hij)).trans hj, hholds, haddress⟩

section

variable {op : Op} {k : Resp op → Worker Status} {answer : Resp op} (hs : CacheInv s)
  (hi : s.requests[i]? = some request) (hprog : request.prog = .call op k)
include hs hi hprog

/-- A request that looks a record up has no grant yet. -/
theorem CacheInv.keepsRequests :
    s.KeepsRequests ⟨w', s.requests.set i (request.answered s.world op k answer)⟩ := by
  intro j other hj
  by_cases hij : j = i
  · subst hij
    obtain rfl := Option.some.inj (hi.symm.trans hj)
    refine ⟨_, getElem?_set_here hi _, View.next_response _ _ _, fun hgrant ↦ ?_⟩
    have hop : ∀ url, op ≠ .cacheRecordGetOrCreate url := by
      rintro url rfl
      exact hgrant ((hs.requests j request hi).requires hprog).1
    have hsame : (request.answered s.world op k answer).view.grant = request.view.grant :=
      View.next_grant hop answer
    exact ⟨hsame ▸ hgrant, Request.answered_source hop k answer⟩
  · exact ⟨other, (List.getElem?_set_ne (Ne.symm hij)).trans hj, rfl, fun hgrant ↦ ⟨hgrant, rfl⟩⟩

omit hs hprog in
theorem writes_answered (hlookup : ∀ url, op ≠ .cacheRecordGetOrCreate url)
    (hclose : ∀ ref status, op ≠ .cacheRecordClose ref status) (hwrites : s.Writes j r) :
    (⟨w', s.requests.set i (request.answered s.world op k answer)⟩ : ProxyState).Writes j r :=
  hwrites.set hi fun _ _ hholds ↦ ⟨(View.next_grant hlookup answer).trans hholds.1,
    (View.next_closed hclose answer).trans hholds.2⟩

omit hs hprog in
/-- A lookup takes no grant away, for its request has none. -/
theorem writes_lookup {url : List UInt8} {k : Grant → Worker Status} {grant : Grant}
    (hnone : request.view.grant = none) (hwrites : s.Writes j r) :
    (⟨w', s.requests.set i (request.answered s.world (.cacheRecordGetOrCreate url) k grant)⟩ :
      ProxyState).Writes j r :=
  hwrites.set hi fun _ ref hholds ↦ absurd (hnone.symm.trans hholds.1) (by simp)

theorem CacheInv.memoryChange_call (h : WorldStep ttl md5sum request.view s.world op answer w') :
    MemoryChange ttl s ⟨w', s.requests.set i (request.answered s.world op k answer)⟩
      (proxyEvents md5sum s (.call i ⟨op, answer⟩)
        ⟨w', s.requests.set i (request.answered s.world op k answer)⟩) := by
  have hrequires := (hs.requests i request hi).requires hprog
  have hanswered := getElem?_set_here hi (request.answered s.world op k answer)
  cases h with
  | refuse hlen =>
      simp only [proxyEvents, if_pos hlen]
      exact .quiet rfl rfl fun _ _ ↦ writes_lookup hi hrequires.1
  | @create url now hlen hfind hnow =>
      simp only [proxyEvents, if_neg hlen]
      exact .create i request _ hi (hashFind_none hfind) rfl rfl
        (fun _ _ ↦ writes_lookup hi hrequires.1)
        ⟨_, _, hanswered, ⟨rfl, hrequires.2.1⟩, rfl⟩
  | @decide url r record now later hlen hfind hrecord hnow hlater =>
      have hname : record.name = md5sum url := by
        simpa [List.getElem?_map, hrecord] using hashFind_some hfind
      simp only [proxyEvents, if_neg hlen, grantOf_action, ← hname]
      refine .decide i r request record now hi hrecord hlater rfl rfl
        (fun _ _ ↦ writes_lookup hi hrequires.1) (fun hwrite ↦ ?_) fun hread ↦ ?_
      · refine ⟨_, ⟨r, record.name⟩, hanswered, ⟨?_, hrequires.2.1⟩, rfl⟩
        simp only at hwrite
        simp [Request.answered, View.next, hwrite, grantOf]
      · refine ⟨_, hanswered, by simp [Request.answered, View.next], ?_⟩
        simp only at hread
        simp [Request.answered, hread, grantOf]
  | close hrecord =>
      obtain ⟨grant, hholds, href, rfl⟩ := View.Requires.close hrequires
      exact .close i request grant _ _ hi hholds href hrecord rfl rfl
        fun j r hij hwrites ↦ hwrites.set hi fun h ↦ absurd h hij
  | writeOther hfile w' =>
      obtain ⟨ref, file, -, hsome, hhandle, -⟩ := hrequires
      exact absurd ⟨hsome, hhandle⟩ (hfile file)
  | other hop answer =>
      have hlookup : ∀ url, op ≠ .cacheRecordGetOrCreate url := by
        rintro url rfl
        exact hop trivial
      have hclose : ∀ ref status, op ≠ .cacheRecordClose ref status := by
        rintro ref status rfl
        exact hop trivial
      have hevents : proxyEvents md5sum s (.call i ⟨op, answer⟩)
          ⟨s.world, s.requests.set i (request.answered s.world op k answer)⟩ = [] := by
        cases op with
        | cacheRecordGetOrCreate url => exact absurd rfl (hlookup url)
        | cacheRecordClose ref status => exact absurd rfl (hclose ref status)
        | _ => rfl
      rw [hevents]
      exact .quiet rfl rfl fun _ _ ↦ writes_answered hi hlookup hclose
  | _ => exact .quiet rfl rfl fun _ _ ↦ writes_answered hi (by simp) (by simp)

end

/-- One case for each thing a step can do. -/
theorem CacheInv.memoryChange (hs : CacheInv s)
    (h : ((proxySystem ttl md5sum).guarded Undisturbed).Step s label s') :
    MemoryChange ttl s s' (proxyEvents md5sum s label s') ∧ s.KeepsRequests s' := by
  obtain ⟨-, h⟩ := h
  cases h with
  | tick hnow =>
      exact ⟨.quiet rfl rfl fun _ _ h ↦ h, fun j request hj ↦ ⟨request, hj, rfl, fun h ↦ ⟨h, rfl⟩⟩⟩
  | arrive fuel cacheFile job serverAddress path hostname pieces hresponse =>
      have happend {j : ℕ} {request : Request} (hj : s.requests[j]? = some request)
          (new : Request) : (s.requests ++ [new])[j]? = some request := by
        rw [List.getElem?_append_left (List.getElem?_eq_some_iff.mp hj).1, hj]
      refine ⟨.quiet rfl rfl ?_, fun j request hj ↦ ⟨request, happend hj _, rfl, fun h ↦ ⟨h, rfl⟩⟩⟩
      rintro j r ⟨request, ref, hj, hwrite⟩
      exact ⟨request, ref, happend hj _, hwrite⟩
  | call hi hprog h => exact ⟨hs.memoryChange_call hi hprog h, hs.keepsRequests hi hprog⟩

/-! ## What the log says of the records -/

/-- The last write grant of a record, which set its expiry time: either it has been closed, and
nobody writes the record, or it is still open. -/
structure LastWriter (ttl : ℤ) (s : ProxyState) (log : List CacheEvent) (r : ℕ)
    (record : CacheRecord) (j : ℕ) (t₀ : ℤ) (since : List CacheEvent) : Prop where
  last : LastWrite log record.name j t₀ since
  expiry : record.expirationTime = t₀ + ttl
  response : ∃ writer, s.requests[j]? = some writer ∧ s.world.responses r = writer.view.response
  phase : .closed j ∈ since ∧ record.writeInProgress = 0 ∨ .closed j ∉ since ∧ s.Writes j r

theorem LastWriter.frame (h : LastWriter ttl s log r record j t₀ since)
    (hkeeps : s.KeepsRequests s') (hresponse : s'.world.responses r = s.world.responses r)
    (hname : record'.name = record.name) (hexpiry : record'.expirationTime = record.expirationTime)
    (hnone : ∀ j t, .answered j record.name .shouldWrite t ∉ events)
    (hphase : .closed j ∈ since ++ events ∧ record'.writeInProgress = 0 ∨
      .closed j ∉ since ++ events ∧ s'.Writes j r) :
    LastWriter ttl s' (log ++ events) r record' j t₀ (since ++ events) := by
  obtain ⟨writer, hj, hsame⟩ := h.response
  obtain ⟨writer', hj', hresponse', -⟩ := hkeeps j writer hj
  exact ⟨hname ▸ h.last.append hnone, hexpiry.trans h.expiry,
    ⟨writer', hj', hresponse.trans (hsame.trans hresponse'.symm)⟩, hphase⟩

/-- The grant that has just been given. -/
theorem LastWriter.here (log : List CacheEvent) (hexpiry : record.expirationTime = t₀ + ttl)
    (hi : s.requests[i]? = some request)
    (hkeeps : s.KeepsRequests s') (hresponse : s'.world.responses r = request.view.response)
    (hwrites : s'.Writes i r) :
    LastWriter ttl s' (log ++ [.answered i record.name .shouldWrite t₀]) r record i t₀ [] := by
  obtain ⟨request', hi', hsame, -⟩ := hkeeps i request hi
  exact ⟨.here log _ i t₀, hexpiry, ⟨request', hi', hresponse.trans hsame.symm⟩,
    .inr ⟨List.not_mem_nil, hwrites⟩⟩

/-- An answer that request `i` was right to be given, with `before` in the log. -/
structure RightAnswer (ttl : ℤ) (s : ProxyState) (before : List CacheEvent) (i : ℕ)
    (key : List UInt8) (status : ActionStatus) (t : ℤ) : Prop where
  fresh : status = .shouldRead ↔
    ∃ j t₀ since, LastWrite before key j t₀ since ∧ .closed j ∈ since ∧ t < t₀ + ttl
  source : ∀ j t₀ since, LastWrite before key j t₀ since → status = .shouldRead →
    ∃ reader writer, s.requests[i]? = some reader ∧ s.requests[j]? = some writer ∧
      reader.view.grant ≠ none ∧ reader.source = writer.view.response

theorem RightAnswer.served {before : List CacheEvent} {t : ℤ}
    (h : RightAnswer ttl s before i key status t) (hs : CacheTransparent s)
    (hlast : LastWrite before key j t₀ since) (hstatus : status = .shouldRead) :
    ServedWith s i j := by
  obtain ⟨reader, writer, hi, hj, -, hsource⟩ := h.source j t₀ since hlast hstatus
  obtain ⟨hsent, hfile⟩ := hs reader (List.mem_of_getElem? hi)
  exact ⟨reader, writer, hi, hj, fun record hholds ↦ (hfile record hholds).trans hsource,
    fun hprog hcached ↦ (hsent hprog hcached).trans hsource⟩

/-- What the log says: of every record who wrote it last, that every key that was looked up has
its record, and how the lookups were answered. -/
structure MemoryInv (ttl : ℤ) (p : ProxyState × List CacheEvent) : Prop where
  written : ∀ r record, p.1.world.content[r]? = some record →
    ∃ j t₀ since, LastWriter ttl p.1 p.2 r record j t₀ since
  known : ∀ i key status t, .answered i key status t ∈ p.2 →
    ∃ (r : ℕ) (record : CacheRecord), p.1.world.content[r]? = some record ∧ record.name = key
  answered : ∀ before after i key status t, p.2 = before ++ .answered i key status t :: after →
    RightAnswer ttl p.1 before i key status t

/-- Someone who may write a record is not done with it. -/
theorem CacheInv.writes_not_settled (hs : CacheInv s) (h : s.Writes j r)
    (hrecord : s.world.content[r]? = some record) : record.writeInProgress ≠ 0 := by
  obtain ⟨request, ref, hj, hholds, rfl⟩ := h
  exact hs.not_settled hj hholds hrecord

theorem MemoryChange.keepsNames (h : MemoryChange ttl s s' events) :
    KeepsNames s.world.content s'.world.content := by
  cases h with
  | quiet hcontent => exact hcontent ▸ .refl _
  | create i request key hi hnew hcontent => exact hcontent ▸ .append _ _
  | decide i r request record now hi hrecord hnow hcontent =>
      exact hcontent ▸ .set hrecord (cacheRecordDecide_name ..)
  | close i request grant ref record hi hholds href hrecord hcontent =>
      exact hcontent ▸ .set hrecord (cacheRecordUpdate_name ..)

section

variable (hp : MemoryInv ttl (s, log)) (hs : CacheInv s) (hkeeps : s.KeepsRequests s')
include hp hs hkeeps

theorem MemoryInv.written_step (h : MemoryChange ttl s s' events) (r : ℕ) (record : CacheRecord)
    (hrecord : s'.world.content[r]? = some record) :
    ∃ j t₀ since, LastWriter ttl s' (log ++ events) r record j t₀ since := by
  cases h with
  | quiet hcontent hresponses hwrites =>
      obtain ⟨j, t₀, since, hlast⟩ := hp.written r record (hcontent ▸ hrecord)
      refine ⟨j, t₀, _, hlast.frame hkeeps (congrFun hresponses r) rfl rfl (by simp) ?_⟩
      rw [List.append_nil]
      exact hlast.phase.imp_right (And.imp_right (hwrites j r))
  | create i request key hi hnew hcontent hresponses hwrites hself =>
      rw [hcontent] at hrecord
      rcases Nat.lt_trichotomy r s.world.content.length with hr | rfl | hr
      · rw [List.getElem?_append_left hr] at hrecord
        obtain ⟨j, t₀, since, hlast⟩ := hp.written r record hrecord
        have hother : record.name ≠ key := hnew record (List.mem_of_getElem? hrecord)
        have hresponse : s'.world.responses r = s.world.responses r := by
          rw [hresponses, Function.update_of_ne (Nat.ne_of_lt hr)]
        refine ⟨j, t₀, _, hlast.frame hkeeps hresponse rfl rfl (by simp [hother]) ?_⟩
        simpa using hlast.phase.imp_right (And.imp_right (hwrites j r))
      · obtain rfl : cacheRecordCreate ttl key s'.world.clock = record := by simpa using hrecord
        have hresponse : s'.world.responses s.world.content.length = request.view.response := by
          rw [hresponses, Function.update_self]
        have hexpiry : (cacheRecordCreate ttl key s'.world.clock).expirationTime =
            s'.world.clock + ttl := rfl
        exact ⟨i, s'.world.clock, [], .here log hexpiry hi hkeeps hresponse hself⟩
      · rw [List.getElem?_eq_none (by simp; omega)] at hrecord
        cases hrecord
  | decide i r₀ request record₀ now hi hrecord₀ hnow hcontent hresponses hwrites hself hread =>
      rw [hcontent] at hrecord
      have hothers (hr : r₀ ≠ r) : s'.world.responses r = s.world.responses r := by
        rw [hresponses]
        split
        · exact Function.update_of_ne (Ne.symm hr) _ _
        · rfl
      by_cases hr : r₀ = r
      · subst hr
        obtain rfl : (cacheRecordDecide ttl record₀ now s'.world.clock).2 = record := by
          simpa [getElem?_set_here hrecord₀ _] using hrecord
        rcases cacheRecordDecide_expiry ttl record₀ now s'.world.clock with
          ⟨hwrite, hexpiry⟩ | ⟨-, hother, hexpiry⟩
        · have hresponse : s'.world.responses r₀ = request.view.response := by
            rw [hresponses, if_pos hwrite, Function.update_self]
          rw [hwrite, ← cacheRecordDecide_name ttl record₀ now s'.world.clock]
          exact ⟨i, s'.world.clock, [], .here log hexpiry hi hkeeps hresponse (hself hwrite)⟩
        · obtain ⟨j, t₀, since, hlast⟩ := hp.written r₀ record₀ hrecord₀
          have hresponse : s'.world.responses r₀ = s.world.responses r₀ := by
            rw [hresponses, if_neg hother]
          have hsame : (cacheRecordDecide ttl record₀ now s'.world.clock).2.writeInProgress =
              record₀.writeInProgress := cacheRecordDecide_writeInProgress hother
          refine ⟨j, t₀, _, hlast.frame hkeeps hresponse (by simp) hexpiry
            (by simp [Ne.symm hother]) ?_⟩
          simpa [hsame] using hlast.phase.imp_right (And.imp_right (hwrites j r₀))
      · rw [List.getElem?_set_ne hr] at hrecord
        obtain ⟨j, t₀, since, hlast⟩ := hp.written r record hrecord
        have hother : record.name ≠ record₀.name := by
          intro hname
          exact hr (address_eq hs.names hrecord₀ hrecord hname.symm)
        refine ⟨j, t₀, _, hlast.frame hkeeps (hothers hr) rfl rfl (by simp [hother]) ?_⟩
        simpa using hlast.phase.imp_right (And.imp_right (hwrites j r))
  | close i request grant ref record₀ hi hholds href hrecord₀ hcontent hresponses hwrites =>
      rw [hcontent] at hrecord
      have hresponse : s'.world.responses r = s.world.responses r := congrFun hresponses r
      by_cases hr : ref.address = r
      · subst hr
        obtain rfl : cacheRecordUpdate record₀ grant.action = record := by
          simpa [getElem?_set_here hrecord₀ _] using hrecord
        obtain ⟨j, t₀, since, hlast⟩ := hp.written _ record₀ hrecord₀
        have hexpiry : (cacheRecordUpdate record₀ grant.action).expirationTime =
            record₀.expirationTime := by
          cases grant.action <;> rfl
        refine ⟨j, t₀, _, hlast.frame hkeeps hresponse (by simp) hexpiry (by simp) ?_⟩
        rcases hlast.phase with ⟨hclosed, hidle⟩ | ⟨hopen, hwrite⟩
        · refine .inl ⟨List.mem_append_left _ hclosed, ?_⟩
          cases grant.action <;> first | rfl | exact hidle
        · by_cases hij : j = i
          · subst hij
            rw [(hwrite.grant_eq hi hholds href).1]
            exact .inl ⟨by simp, rfl⟩
          · exact .inr ⟨by simp [hopen, hij], hwrites j _ hij hwrite⟩
      · rw [List.getElem?_set_ne hr] at hrecord
        obtain ⟨j, t₀, since, hlast⟩ := hp.written r record hrecord
        refine ⟨j, t₀, _, hlast.frame hkeeps hresponse rfl rfl (by simp) ?_⟩
        rcases hlast.phase with ⟨hclosed, hidle⟩ | ⟨hopen, hwrite⟩
        · exact .inl ⟨List.mem_append_left _ hclosed, hidle⟩
        · have hij : j ≠ i := by
            rintro rfl
            exact hr (hwrite.grant_eq hi hholds href).2
          exact .inr ⟨by simp [hopen, hij], hwrites j r hij hwrite⟩

omit hs hkeeps in
theorem MemoryInv.known_step (h : MemoryChange ttl s s' events) (i : ℕ) (key : List UInt8)
    (status : ActionStatus) (t : ℤ) (hmem : .answered i key status t ∈ log ++ events) :
    ∃ (r : ℕ) (record : CacheRecord), s'.world.content[r]? = some record ∧ record.name = key := by
  rcases List.mem_append.mp hmem with hold | hnew
  · obtain ⟨r, record, hrecord, rfl⟩ := hp.known i key status t hold
    exact ⟨r, h.keepsNames r record hrecord⟩
  · cases h with
    | quiet => cases hnew
    | create i₀ request key₀ hi hkey hcontent =>
        obtain ⟨-, rfl, -, -⟩ := CacheEvent.answered.inj (List.mem_singleton.mp hnew)
        exact ⟨s.world.content.length, cacheRecordCreate ttl key s'.world.clock, by simp [hcontent],
          rfl⟩
    | decide i₀ r request record now hi hrecord hnow hcontent =>
        obtain ⟨-, rfl, -, -⟩ := CacheEvent.answered.inj (List.mem_singleton.mp hnew)
        exact ⟨r, _, by rw [hcontent, getElem?_set_here hrecord], cacheRecordDecide_name ..⟩
    | close => simp at hnew

omit hs in
/-- What has been said of an answer stays true. -/
theorem MemoryInv.answered_old {before after : List CacheEvent} {t : ℤ}
    (hsplit : log = before ++ .answered i key status t :: after) :
    RightAnswer ttl s' before i key status t := by
  obtain ⟨hiff, hread⟩ := hp.answered before after i key status t hsplit
  refine ⟨hiff, fun j t₀ since hlast hstatus ↦ ?_⟩
  obtain ⟨reader, writer, hi, hj, hgrant, hsource⟩ := hread j t₀ since hlast hstatus
  obtain ⟨reader', hi', -, hreader⟩ := hkeeps i reader hi
  obtain ⟨writer', hj', hresponse, -⟩ := hkeeps j writer hj
  obtain ⟨hgrant', hsource'⟩ := hreader hgrant
  exact ⟨reader', writer', hi', hj', hgrant', hsource'.trans (hsource.trans hresponse.symm)⟩

theorem MemoryInv.answered_step (h : MemoryChange ttl s s' events)
    (before after : List CacheEvent) (i : ℕ) (key : List UInt8) (status : ActionStatus) (t : ℤ)
    (hsplit : log ++ events = before ++ .answered i key status t :: after) :
    RightAnswer ttl s' before i key status t := by
  cases h with
  | quiet =>
      rw [List.append_nil] at hsplit
      exact hp.answered_old hkeeps hsplit
  | create i₀ request key₀ hi hnew =>
      rcases split_concat hsplit with ⟨after', hold⟩ | ⟨rfl, hevent⟩
      · exact hp.answered_old hkeeps hold
      · obtain ⟨rfl, rfl, rfl, rfl⟩ := CacheEvent.answered.inj hevent
        -- Nobody was answered on this key before.
        have hnone (j : ℕ) (t₀ : ℤ) (since : List CacheEvent) :
            ¬LastWrite before key j t₀ since := by
          rintro ⟨⟨earlier, rfl⟩, -⟩
          obtain ⟨r, record, hrecord, hname⟩ := hp.known j key .shouldWrite t₀ (by simp)
          exact hnew record (List.mem_of_getElem? hrecord) hname
        refine ⟨iff_of_false (by simp) ?_, fun j t₀ since hlast ↦ absurd hlast (hnone j t₀ since)⟩
        rintro ⟨j, t₀, since, hlast, -⟩
        exact hnone j t₀ since hlast
  | decide i₀ r request record now hi hrecord hnow hcontent hresponses hwrites hself hread =>
      rcases split_concat hsplit with ⟨after', hold⟩ | ⟨rfl, hevent⟩
      · exact hp.answered_old hkeeps hold
      · obtain ⟨rfl, rfl, rfl, rfl⟩ := CacheEvent.answered.inj hevent
        obtain ⟨j, t₀, since, hlast⟩ := hp.written r record hrecord
        have hclosed : .closed j ∈ since ↔ record.writeInProgress = 0 := by
          rcases hlast.phase with ⟨hclosed, hidle⟩ | ⟨hopen, hwrite⟩
          · exact iff_of_true hclosed hidle
          · exact iff_of_false hopen (hs.writes_not_settled hwrite hrecord)
        refine ⟨?_, fun j' t₀' since' hlast' hstatus ↦ ?_⟩
        · rw [cacheRecordDecide_shouldRead_iff hnow, ← hclosed, hlast.expiry]
          constructor
          · rintro ⟨hmem, hfresh⟩
            exact ⟨j, t₀, since, hlast.last, hmem, hfresh⟩
          · rintro ⟨j', t₀', since', hlast', hmem, hfresh⟩
            obtain ⟨rfl, rfl, rfl⟩ := hlast.last.unique hlast'
            exact ⟨hmem, hfresh⟩
        · obtain ⟨rfl, rfl, rfl⟩ := hlast.last.unique hlast'
          obtain ⟨reader, hi', hgrant, hsource⟩ := hread hstatus
          obtain ⟨writer, hj, hresponse⟩ := hlast.response
          obtain ⟨writer', hj', hsame, -⟩ := hkeeps j writer hj
          exact ⟨reader, writer', hi', hj', hgrant, hsource.trans (hresponse.trans hsame.symm)⟩
  | close i₀ =>
      rcases split_concat hsplit with ⟨after', hold⟩ | ⟨-, hevent⟩
      · exact hp.answered_old hkeeps hold
      · cases hevent

end

theorem memoryInv_reachable {p : ProxyState × List CacheEvent}
    (hp : (proxyHistory ttl md5sum).Reachable p) : MemoryInv ttl p := by
  induction hp with
  | init h =>
      obtain ⟨⟨hcontent, -⟩, hlog⟩ := h
      exact ⟨by simp [hcontent], by simp [hlog], by simp [hlog]⟩
  | @step p p' label hp h ih =>
      obtain ⟨s, log⟩ := p
      obtain ⟨s', log'⟩ := p'
      obtain ⟨hstep, hlog⟩ := h
      change log' = log ++ proxyEvents md5sum s label s' at hlog
      subst hlog
      have hs := cacheInv_reachable hp.of_logged
      obtain ⟨hchange, hkeeps⟩ := hs.memoryChange hstep
      exact ⟨ih.written_step hs hkeeps hchange, ih.known_step hchange,
        ih.answered_step hs hkeeps hchange⟩

/-- A request that was answered from the cache has sent what it was to be served. -/
theorem CacheInv.transparent (hs : CacheInv s) : CacheTransparent s := by
  intro request hrequest
  obtain ⟨i, hi⟩ := List.mem_iff_getElem?.mp hrequest
  refine ⟨fun hprog hcached ↦ ?_, fun record hread ↦ hs.file_of_reader hi hread⟩
  have hkeeps := (hs.requests i request hi).keeps request.source fun _ ↦ rfl
  rw [hprog] at hkeeps
  exact hkeeps rfl hcached

theorem MemoryInv.answeredFromMemory {p : ProxyState × List CacheEvent} (hp : MemoryInv ttl p)
    (hs : CacheInv p.1) : AnsweredFromMemory ttl p := by
  intro before after i key status t hsplit
  have hanswer := hp.answered before after i key status t hsplit
  exact ⟨hanswer.fresh, fun j t₀ since hlast hstatus ↦
    hanswer.served hs.transparent hlast hstatus⟩

/-- The cache answers with the response of the last fetch for a key, from the moment it is
complete until `CACHE_TTL` after it began, and at no other time. -/
theorem cache_answersFromMemory {p : ProxyState × List CacheEvent}
    (hp : (proxyHistory ttl md5sum).Reachable p) : AnsweredFromMemory ttl p :=
  (memoryInv_reachable hp).answeredFromMemory (cacheInv_reachable hp.of_logged)

/-! ## A prefetched page -/

/-- A request without a client can be followed through a run that nobody disturbs. -/
theorem MayEnd.reachable_prefetch {Q : World → View → Status → Prop} {p : Worker Status} {v : View}
    {requests : List Request} {source : List UInt8} {job : Job} {cacheFile : Option FileHandle}
    (h : MayEnd ttl md5sum Q p w v) (hcalls : p.Within (JobCalls (-1)) fun _ ↦ True)
    (hjob : job.clientSocketFd = -1)
    (hs : (proxyHistory ttl md5sum).Reachable (⟨w, requests⟩, log))
    (hi : requests[i]? = some ⟨p, v, source, job, cacheFile⟩) :
    ∃ w' v' status source' log', Q w' v' status ∧ (proxyHistory ttl md5sum).Reachable
      (⟨w', requests.set i ⟨.ret status, v', source', job, cacheFile⟩⟩, log') := by
  induction p generalizing w v requests source log with
  | ret status =>
      obtain ⟨hlt, hget⟩ := List.getElem?_eq_some_iff.mp hi
      refine ⟨w, v, status, source, log, h, ?_⟩
      rwa [← hget, List.set_getElem_self]
  | halt e => exact h.elim
  | call op k ih =>
      obtain ⟨answer, w₁, hstep, h⟩ := h
      have hguard : Undisturbed ⟨w, requests⟩ (.call i ⟨op, answer⟩) := by
        intro request hrequest
        obtain rfl := Option.some.inj (hi.symm.trans hrequest)
        refine ⟨fun hfails ↦ ?_, ?_⟩
        · cases op with
          | peek socket =>
              cases socket with
              | client fd => exact absurd rfl hcalls.1
              | server fd => exact hfails.elim
          | send socket bytes =>
              cases socket with
              | client fd => exact absurd rfl hcalls.1
              | server fd => exact hfails.elim
          | _ => exact hfails.elim
        · cases op with
          | cacheRecordGetOrCreate url => exact fun _ hfd ↦ absurd hjob hfd
          | _ => trivial
      have hnext := hs.log ⟨hguard, .call hi rfl hstep⟩
      obtain ⟨w', v', status, source', log', hQ, hreach⟩ :=
        ih answer h (hcalls.2 answer) hnext (getElem?_set_here hi _)
      rw [List.set_set] at hreach
      exact ⟨w', v', status, source', log', hQ, hreach⟩

/-- Every url has the same hash. -/
def oneKey (_ : List UInt8) : List UInt8 := text "k"

theorem onePiece_complete : CompleteResponse [shoutedResponse.bytes] :=
  ⟨by decide, shoutedResponse, by decide, by decide⟩

theorem prefetched_run :
    MayEnd 10 oneKey
      (fun w _ _ ↦ w.content = [⟨text "k", 10, 0, 0⟩] ∧ w.clock = 0 ∧
        w.responses 0 = shoutedResponse.bytes)
      (handleValidRequest 3 none (jobConstruct (-1)) ⟨10, 0, 0, 1, 80⟩ (text "/") (text "a"))
      emptyWorld (View.start [shoutedResponse.bytes]) := by
  unfold handleValidRequest
  rw [if_neg (by decide)]
  simp only [cacheRecordGetOrCreate_bind]
  refine .call (.create (by decide) rfl (Int.le_refl 0)) ?_
  rw [serveGrant, if_neg (by decide)]
  simp only [fopen_bind]
  refine .call (.openWrite _ 5) ?_
  simp only [fetch, newSocket_bind, connect_bind]
  refine .call (.other id 4) (.call (.other id true) ?_)
  rw [if_neg (by decide)]
  apply mayEnd_send (by decide) (by decide)
  rw [if_neg (by decide)]
  simp only [relayResponse, recv_bind]
  refine .call (.receive (.data shoutedResponse.bytes (by decide)) ?_) ?_
  · rintro _ _ ⟨⟩
    exact ⟨by decide, by decide⟩
  simp only [RecvResult.bytes, RecvResult.length]
  have hparse : parseResponseHeader (responseBuffer shoutedResponse.bytes) = .ok (38, 2) :=
    parseResponseHeader_responseBuffer_iff.mpr ⟨by decide, by decide, by decide⟩
  rw [hparse]
  simp only [Prog.lift_ok, Prog.ret_bind, cacheAndSend_some, Prog.call_bind]
  refine .call (.write ⟨rfl, rfl⟩) ?_
  rw [trySendInChunks, if_pos (by decide), Prog.ret_bind, if_neg (by decide), relayRest,
    if_neg (by decide), if_neg (by decide)]
  simp only [Prog.ret_bind, close_bind]
  refine .call (.other id ()) ?_
  simp only [finishRelay, finishWrite, dispatchForClient]
  rw [if_neg (by decide)]
  simp only [nonNullFile, Prog.ret_bind, fclose_bind, cacheRecordClose_bind, Prog.call_bind]
  refine .call (.other id ()) (.call (.close rfl) ?_)
  exact ⟨by decide, by decide, by decide⟩

/-- A page has been fetched without a client, and then a client asks for it. -/
theorem prefetched_history : ∃ (p : ProxyState × List CacheEvent) (before : List CacheEvent)
    (j : ℕ) (since : List CacheEvent), p.2 = before ++ [.answered 1 (text "k") .shouldRead 9] ∧
      LastWrite before (text "k") j 0 since ∧ .closed j ∈ since ∧
        (∃ reader, p.1.requests[1]? = some reader ∧
          reader.view.Holds (.shouldRead ⟨0, text "k"⟩) ∧
            reader.source = shoutedResponse.bytes) ∧
          (proxyHistory 10 oneKey).Reachable p := by
  have hinit : (proxyHistory 10 oneKey).Reachable (⟨emptyWorld, []⟩, []) := .init ⟨⟨rfl, rfl⟩, rfl⟩
  have hguard (s : ProxyState) (job : Job) : Undisturbed s (.arrive job (text "/") none) :=
    fun hquery ↦ absurd hquery (by decide)
  have harrive := hinit.log ⟨hguard _ _, .arrive 3 none (jobConstruct (-1)) ⟨10, 0, 0, 1, 80⟩
    (text "/") (text "a") [shoutedResponse.bytes] onePiece_complete⟩
  have hcalls : (handleValidRequest 3 none (jobConstruct (-1)) ⟨10, 0, 0, 1, 80⟩ (text "/")
      (text "a")).Within (JobCalls (-1)) fun _ ↦ True :=
    handleValidRequest_within (by decide) (by decide) none (jobConstruct (-1)) _ _
  obtain ⟨w, v, status, source, log, ⟨hcontent, hclock, hresponse⟩, hfetched⟩ :=
    prefetched_run.reachable_prefetch hcalls rfl harrive (i := 0) rfl
  have hclient := hfetched.log ⟨hguard _ _, .arrive 3 none (jobConstruct 3) ⟨10, 0, 0, 1, 80⟩
    (text "/") (text "a") threePieces threePieces_complete⟩
  have hrecord : w.content[0]? = some ⟨text "k", 10, 0, 0⟩ := by rw [hcontent]; rfl
  obtain ⟨j, t₀, since, hlast⟩ := (memoryInv_reachable hclient).written 0 _ hrecord
  obtain rfl : t₀ = 0 := by
    have hexpiry := hlast.expiry
    simp only at hexpiry
    omega
  have hclosed : .closed j ∈ since := by
    rcases hlast.phase with ⟨hclosed, -⟩ | ⟨-, hwrite⟩
    · exact hclosed
    · exact absurd rfl ((cacheInv_reachable hclient.of_logged).writes_not_settled hwrite hrecord)
  have hfind : hashFind w.content (oneKey (text "a" ++ text "/")) = some 0 := by
    rw [hcontent]
    decide
  have hnow : w.clock ≤ 9 := by
    rw [hclock]
    decide
  have hread (s : ProxyState) (url : List UInt8) (record : RecordRef) :
      Undisturbed s (.call 1 ⟨.cacheRecordGetOrCreate url, .shouldRead record⟩) :=
    fun request _ ↦ ⟨False.elim, fun h ↦ by simp [Grant.action] at h⟩
  obtain ⟨w', hstep, hlater⟩ : ∃ w', WorldStep 10 oneKey (View.start threePieces) w
      (.cacheRecordGetOrCreate (text "a" ++ text "/")) (.shouldRead ⟨0, text "k"⟩) w' ∧
        w'.clock = 9 :=
    ⟨_, .decide (by decide) hfind hrecord hnow (Int.le_refl 9), rfl⟩
  have hhit := hclient.log ⟨hread _ _ _, .call (i := 1) rfl rfl hstep⟩
  rw [← hlater]
  exact ⟨_, _, j, since, rfl, hlast.last, hclosed, ⟨_, rfl, ⟨rfl, rfl⟩, hresponse⟩, hhit⟩

theorem cache_answersFromMemory_prefetched : ∃ p : ProxyState × List CacheEvent,
    CacheEvent.answered 1 (text "k") .shouldRead 9 ∈ p.2 ∧ AnsweredFromMemory 10 p := by
  obtain ⟨p, before, j, since, hlog, -, -, -, hp⟩ := prefetched_history
  exact ⟨p, by simp [hlog], cache_answersFromMemory hp⟩

end HttpProxy
