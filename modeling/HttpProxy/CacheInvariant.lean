import HttpProxy.CacheWorld

/-!
# Requests and the records they hold

The counters of the records count the grants of the requests, so a request that writes a
record is alone with it.  The invariant says of each request what it has written or may
read, and of each record nobody writes that its file is whole.
-/

namespace HttpProxy

open Interaction Protocol Transition ReadersWriter

/-! ## The grants of the requests -/

/-- A request as a call of the cache table, by the grant it has open. -/
def Request.pc (request : Request) : CallPc :=
  match request.view.closed, request.view.grant with
  | false, some (.unavailable (some record)) => .granted record.address .unavailable
  | false, some (.shouldRead record) => .granted record.address .shouldRead
  | false, some (.shouldWrite record) => .granted record.address .shouldWrite
  | _, _ => .closed

def ProxyState.table (s : ProxyState) : CacheState where
  shared := ⟨s.world.content, none, fun _ ↦ none, s.world.clock⟩
  calls := s.requests.map Request.pc

theorem Request.pc_grant_of_holds {request : Request} {grant : Grant} {record : RecordRef}
    (h : request.view.Holds grant) (hrecord : grant.record = some record) :
    request.pc.grant = some (record.address, grant.action) := by
  simp only [pc, h.2, h.1]
  cases grant with
  | unavailable record' =>
      obtain rfl : record' = some record := hrecord
      rfl
  | shouldRead record' =>
      obtain rfl : record' = record := Option.some.inj hrecord
      rfl
  | shouldWrite record' =>
      obtain rfl : record' = record := Option.some.inj hrecord
      rfl

theorem Request.pc_of_none {request : Request} (h : request.view.grant = none) :
    request.pc = .closed := by
  unfold pc
  rw [h]
  cases request.view.closed <;> rfl

theorem Request.pc_of_closed {request : Request} (h : request.view.closed = true) :
    request.pc = .closed := by
  simp only [pc, h]

theorem Request.pc_congr {request request' : Request}
    (hgrant : request'.view.grant = request.view.grant)
    (hclosed : request'.view.closed = request.view.closed) : request'.pc = request.pc := by
  simp only [pc, hgrant, hclosed]

variable {ttl : ℤ} {md5sum : List UInt8 → List UInt8} {s : ProxyState} {w w' : World}
  {request request' : Request} {i j : ℕ} {record record' : RecordRef}

/-- The code a request has still to run keeps to its view, whatever source it may still be
given. -/
def Request.Keeps (request : Request) : Prop :=
  ∀ source, (request.view.grant ≠ none → source = request.source) →
    (viewing source request.job request.cacheFile).Keeps request.prog (Answered source)
      request.view

/-- What holds of one request at every moment. -/
structure RequestInv (w : World) (request : Request) : Prop where
  keeps : request.Keeps
  known : ∀ grant record, request.view.grant = some grant → grant.record = some record →
    ∃ current, w.content[record.address]? = some current ∧ current.name = record.name
  opened : request.view.cached = true → ∃ record, request.view.grant = some (.shouldRead record) ∧
    ∀ file, request.view.file = some file → file.path = cacheFilePath record
  reader : ∀ record, request.view.Holds (.shouldRead record) →
    request.source = w.responses record.address
  writer : ∀ record, request.view.Holds (.shouldWrite record) →
    w.responses record.address = request.view.response ∧
      ∀ file, request.view.file = some file →
        file.path = cacheFilePath record ∧ w.files file.path = request.view.written

theorem RequestInv.not_cached {w : World} {request : Request} {record : RecordRef}
    (h : RequestInv w request) (hwrite : request.view.Holds (.shouldWrite record)) :
    request.view.cached ≠ true := by
  intro hcached
  obtain ⟨record', hgrant, -⟩ := h.opened hcached
  cases hwrite.1.symm.trans hgrant

/-- The counters of the records count the requests, the names of the records are their
own, and a record nobody writes has the whole response in its file. -/
structure CacheInv (s : ProxyState) : Prop where
  counted : GrantsCounted s.table
  names : (s.world.content.map CacheRecord.name).Nodup
  settled : ∀ r current, s.world.content[r]? = some current → current.writeInProgress = 0 →
    s.world.files (cacheFilePath ⟨r, current.name⟩) = s.world.responses r
  requests : ∀ (i : ℕ) request, s.requests[i]? = some request → RequestInv s.world request

theorem cacheFilePath_inj (h : cacheFilePath record = cacheFilePath record') :
    record.name = record'.name := by
  simpa [cacheFilePath] using h

theorem address_eq {content : CacheTable} (hnames : (content.map CacheRecord.name).Nodup)
    {a b : ℕ} {current current' : CacheRecord} (ha : content[a]? = some current)
    (hb : content[b]? = some current') (hname : current.name = current'.name) : a = b := by
  obtain ⟨hlt, -⟩ := List.getElem?_eq_some_iff.mp ha
  apply (List.getElem?_inj (by simpa using hlt) hnames).mp
  rw [List.getElem?_map, List.getElem?_map, ha, hb, Option.map_some, Option.map_some, hname]

theorem getElem?_table (hi : s.requests[i]? = some request) :
    s.table.calls[i]? = some request.pc := by
  simp [ProxyState.table, hi]

theorem openGrants_pos {grant : Grant} (hi : s.requests[i]? = some request)
    (h : request.view.Holds grant) (hrecord : grant.record = some record) :
    0 < openGrants s.table.calls record.address grant.action := by
  apply countP_pos_of_get (getElem?_table hi)
  simp [Request.pc_grant_of_holds h hrecord]

section

variable (hs : CacheInv s)

include hs

/-- Nobody else holds a grant of the record a request writes. -/
theorem CacheInv.writer_alone {grant : Grant} {other : Request}
    (hi : s.requests[i]? = some request) (hj : s.requests[j]? = some other) (hij : j ≠ i)
    (hwrite : request.view.Holds (.shouldWrite record)) (hother : other.view.Holds grant)
    (hrecord : grant.record = some record') (haction : grant.action ≠ .unavailable) :
    record'.address ≠ record.address := by
  intro haddress
  have hpc := getElem?_table hi
  have hgrant : request.pc.grant = some (record.address, .shouldWrite) :=
    Request.pc_grant_of_holds hwrite rfl
  have hclosed : CallPc.closed.grant = none := rfl
  have hclose := grantsOf_set_close hpc hgrant hclosed
  have hexclusive := hs.counted.exclusive record.address
  have hrest : 0 < openGrants (s.table.calls.set i .closed) record.address grant.action := by
    apply countP_pos_of_get (i := j) (a := other.pc)
    · rw [List.getElem?_set_ne (Ne.symm hij)]
      exact getElem?_table hj
    · simp [Request.pc_grant_of_holds hother hrecord, haddress]
  rw [hclose] at hexclusive
  obtain ⟨hone, hnone⟩ := hexclusive
  cases haction' : grant.action with
  | unavailable => exact haction haction'
  | shouldRead =>
      have := hnone (by simp [addGrant])
      simp only [addGrant, grantsOf] at this
      rw [haction'] at hrest
      omega
  | shouldWrite =>
      simp only [addGrant, grantsOf] at hone
      rw [haction'] at hrest
      omega

theorem CacheInv.not_settled {current : CacheRecord} (hi : s.requests[i]? = some request)
    (hwrite : request.view.Holds (.shouldWrite record))
    (hcurrent : s.world.content[record.address]? = some current) :
    current.writeInProgress ≠ 0 := by
  have hpos : 0 < openGrants s.table.calls record.address .shouldWrite :=
    openGrants_pos hi hwrite rfl
  have hcount := (hs.counted.counts _ _ hcurrent).2
  simp only [grantsOf] at hcount
  omega

theorem CacheInv.settled_of_reader {current : CacheRecord} (hi : s.requests[i]? = some request)
    (hread : request.view.Holds (.shouldRead record))
    (hcurrent : s.world.content[record.address]? = some current) :
    current.writeInProgress = 0 := by
  have hpos : 0 < openGrants s.table.calls record.address .shouldRead :=
    openGrants_pos hi hread rfl
  have hcount := (hs.counted.counts _ _ hcurrent).2
  have hexclusive := (hs.counted.exclusive record.address).2
  simp only [grantsOf] at hcount hexclusive
  by_contra hne
  have := hexclusive (by omega)
  omega

theorem CacheInv.file_of_reader (hi : s.requests[i]? = some request)
    (hread : request.view.Holds (.shouldRead record)) :
    s.world.files (cacheFilePath record) = request.source := by
  have hrequest := hs.requests i request hi
  obtain ⟨current, hcurrent, hname⟩ := hrequest.known _ record hread.1 rfl
  have hfile := hs.settled _ _ hcurrent (hs.settled_of_reader hi hread hcurrent)
  rw [hrequest.reader record hread, ← hfile, cacheFilePath, cacheFilePath, hname]

theorem CacheInv.path_ne_of_settled {current : CacheRecord} {r : ℕ}
    (hi : s.requests[i]? = some request) (hwrite : request.view.Holds (.shouldWrite record))
    (hcurrent : s.world.content[r]? = some current) (hsettled : current.writeInProgress = 0) :
    cacheFilePath ⟨r, current.name⟩ ≠ cacheFilePath record := by
  intro hpath
  obtain ⟨current', hcurrent', hname⟩ :=
    (hs.requests i request hi).known _ record hwrite.1 rfl
  have hr : r = record.address :=
    address_eq hs.names hcurrent hcurrent' ((cacheFilePath_inj hpath).trans hname.symm)
  subst hr
  exact hs.not_settled hi hwrite hcurrent hsettled

theorem CacheInv.path_ne_of_writer {other : Request} (hi : s.requests[i]? = some request)
    (hj : s.requests[j]? = some other) (hij : j ≠ i)
    (hwrite : request.view.Holds (.shouldWrite record))
    (hother : other.view.Holds (.shouldWrite record')) :
    cacheFilePath record' ≠ cacheFilePath record := by
  intro hpath
  obtain ⟨current, hcurrent, hname⟩ := (hs.requests i request hi).known _ record hwrite.1 rfl
  obtain ⟨current', hcurrent', hname'⟩ := (hs.requests j other hj).known _ record' hother.1 rfl
  apply hs.writer_alone hi hj hij hwrite hother rfl (by simp [Grant.action])
  exact address_eq hs.names hcurrent' hcurrent
    (hname'.trans ((cacheFilePath_inj hpath).trans hname.symm))

/-- The invariant after a step of request `i`, from what the step did to the table, to the
files and to the request itself. -/
theorem CacheInv.update (ttl : ℤ) (hi : s.requests[i]? = some request)
    (hchange : GrantChange ttl s.world.content w'.content request.pc request'.pc)
    (hnames : (w'.content.map CacheRecord.name).Nodup)
    (hsettled : ∀ r current, w'.content[r]? = some current → current.writeInProgress = 0 →
      w'.files (cacheFilePath ⟨r, current.name⟩) = w'.responses r)
    (hself : RequestInv w' request')
    (hothers : ∀ j other, j ≠ i → s.requests[j]? = some other → RequestInv w' other) :
    CacheInv ⟨w', s.requests.set i request'⟩ := by
  refine ⟨?_, hnames, hsettled, fun j other hj ↦ ?_⟩
  · have h : GrantsCounted ⟨⟨w'.content, none, fun _ ↦ none, w'.clock⟩,
        s.table.calls.set i request'.pc⟩ := hs.counted.advance (getElem?_table hi) hchange
    simpa [ProxyState.table, List.map_set] using h
  · by_cases hij : j = i
    · subst hij
      obtain rfl : request' = other := by simpa [getElem?_set_here hi _] using hj
      exact hself
    · exact hothers j other hij (by rwa [List.getElem?_set_ne (Ne.symm hij)] at hj)

end

/-- Every record stays where it is, under its name. -/
def KeepsNames (content content' : CacheTable) : Prop :=
  ∀ (r : ℕ) (current : CacheRecord), content[r]? = some current →
    ∃ current' : CacheRecord, content'[r]? = some current' ∧ current'.name = current.name

theorem KeepsNames.refl (content : CacheTable) : KeepsNames content content :=
  fun _ current hcurrent ↦ ⟨current, hcurrent, rfl⟩

theorem KeepsNames.append (content : CacheTable) (new : CacheRecord) :
    KeepsNames content (content ++ [new]) := by
  intro r current hcurrent
  obtain ⟨hlt, -⟩ := List.getElem?_eq_some_iff.mp hcurrent
  exact ⟨current, by rwa [List.getElem?_append_left hlt], rfl⟩

theorem KeepsNames.set {content : CacheTable} {r : ℕ} {current new : CacheRecord}
    (hcurrent : content[r]? = some current) (hname : new.name = current.name) :
    KeepsNames content (content.set r new) := by
  intro r' current' hcurrent'
  by_cases hr : r' = r
  · subst hr
    obtain rfl : current' = current := by simpa [hcurrent'] using hcurrent
    exact ⟨new, getElem?_set_here hcurrent new, hname⟩
  · exact ⟨current', by rwa [List.getElem?_set_ne (Ne.symm hr)], rfl⟩

/-- What a step of another request leaves alone. -/
theorem RequestInv.frame (h : RequestInv w request)
    (hcontent : KeepsNames w.content w'.content)
    (hresponses : ∀ record grant, request.view.Holds grant → grant.record = some record →
      grant.action ≠ .unavailable → w'.responses record.address = w.responses record.address)
    (hfiles : ∀ record, request.view.Holds (.shouldWrite record) →
      w'.files (cacheFilePath record) = w.files (cacheFilePath record)) :
    RequestInv w' request := by
  refine ⟨h.keeps, fun grant record hgrant hrecord ↦ ?_, h.opened, fun record hread ↦ ?_,
    fun record hwrite ↦ ⟨?_, fun file hfile ↦ ?_⟩⟩
  · obtain ⟨current, hcurrent, hname⟩ := h.known grant record hgrant hrecord
    obtain ⟨current', hcurrent', hname'⟩ := hcontent _ _ hcurrent
    exact ⟨current', hcurrent', hname'.trans hname⟩
  · rw [hresponses record _ hread rfl (by simp [Grant.action])]
    exact h.reader record hread
  · rw [hresponses record _ hwrite rfl (by simp [Grant.action])]
    exact (h.writer record hwrite).1
  · obtain ⟨hpath, hwritten⟩ := (h.writer record hwrite).2 file hfile
    rw [hpath] at hwritten ⊢
    exact ⟨rfl, (hfiles record hwrite).trans hwritten⟩

/-- A call that leaves the view's frame alone leaves all else of it alone. -/
theorem RequestInv.of_frame (h : RequestInv w request)
    (hkeeps : request'.Keeps)
    (hframe : request'.view.frame = request.view.frame)
    (hwritten : request'.view.written = request.view.written)
    (hsource : request'.source = request.source) : RequestInv w request' := by
  simp only [View.frame, Prod.mk.injEq] at hframe
  obtain ⟨hresponse, hgrant, hclosed, hcached, hfile⟩ := hframe
  have hpath : ∀ file', request'.view.file = some file' →
      ∃ file, request.view.file = some file ∧ file.path = file'.path := by
    intro file' hfile'
    rw [hfile', Option.map_some, eq_comm, Option.map_eq_some_iff] at hfile
    obtain ⟨file, hfile, hsame⟩ := hfile
    exact ⟨file, hfile, congrArg Prod.snd hsame⟩
  refine ⟨hkeeps, ?_, fun hc ↦ ?_, fun record hread ↦ ?_, fun record hwrite ↦ ⟨?_, ?_⟩⟩
  · rw [hgrant]
    exact h.known
  · obtain ⟨record, hread, hopen⟩ := h.opened (hcached ▸ hc)
    refine ⟨record, hgrant.trans hread, fun file' hfile' ↦ ?_⟩
    obtain ⟨file, hfile, hsame⟩ := hpath file' hfile'
    exact hsame ▸ hopen file hfile
  · rw [hsource]
    exact h.reader record ⟨hgrant ▸ hread.1, hclosed ▸ hread.2⟩
  · rw [hresponse]
    exact (h.writer record ⟨hgrant ▸ hwrite.1, hclosed ▸ hwrite.2⟩).1
  · intro file' hfile'
    obtain ⟨file, hfile, hsame⟩ := hpath file' hfile'
    rw [hwritten, ← hsame]
    exact (h.writer record ⟨hgrant ▸ hwrite.1, hclosed ▸ hwrite.2⟩).2 file hfile

end HttpProxy
