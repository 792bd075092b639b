import HttpProxy.CacheAtomicity
import HttpProxy.CacheMemory

/-!
# The requests at the cache's locks

The runs of the proxy in which the lookups and closes of the requests are made line by line, under
the mutexes of the table and of the records.  They are the runs in which each lookup and each close
is a single step.
-/

namespace HttpProxy

open CString Interaction Protocol Transition

variable {ttl : ℤ} {md5sum : List UInt8 → List UInt8} {w w' : World} {request request' : Request}
  {pc pc' : CallPc} {line line' : Option CallPc} {i j r : ℕ} {status : ActionStatus}
  {content content' : CacheTable} {sh' : CacheShared}

def Op.IsCacheCall : Op → Prop
  | .cacheRecordGetOrCreate _ => True
  | .cacheRecordClose _ _ => True
  | _ => False

/-- The calls that are back at their caller. -/
def CallPc.Returned : CallPc → Prop
  | .granted _ _ => True
  | .closed => True
  | _ => False

/-- A request in a call of the cache goes on with its own code when the call is back.  What the
call has decided or done on its way is known from that line on. -/
structure LockedProxy where
  world : World
  tableMutex : Option ℕ
  recordMutex : ℕ → Option ℕ
  requests : List (Request × Option CallPc)

variable {s s' : LockedProxy}

/-- What the lines of the cache calls work on. -/
def LockedProxy.shared (s : LockedProxy) : CacheShared :=
  ⟨s.world.content, s.tableMutex, s.recordMutex, s.world.clock⟩

def LockedProxy.setLine (s : LockedProxy) (i : ℕ) (request : Request) (line : Option CallPc) :
    LockedProxy :=
  { s with requests := s.requests.set i (request, line) }

/-- What a line leaves. -/
def LockedProxy.setShared (s : LockedProxy) (sh : CacheShared) : LockedProxy :=
  { s with
    world := { s.world with content := sh.content, clock := sh.clock }
    tableMutex := sh.tableMutex
    recordMutex := sh.recordMutex }

/-- The response that a record remembers once `request` has been answered. -/
def LockedProxy.remember (s : LockedProxy) (request : Request) (r : ℕ) (status : ActionStatus) :
    LockedProxy :=
  { s with
    world := { s.world with
      responses := if status = .shouldWrite then
        Function.update s.world.responses r request.view.response else s.world.responses } }

/-- A label of the proxy, or a line that is not seen from outside the cache. -/
inductive LockedLabel where
  | act (label : ProxyLabel)
  | line (i : ℕ)

variable {label : LockedLabel}

inductive LockedStep (ttl : ℤ) (md5sum : List UInt8 → List UInt8) :
    LockedProxy → LockedLabel → LockedProxy → Prop
  | tick {s : LockedProxy} {now : ℤ} (hnow : s.world.clock ≤ now) :
      LockedStep ttl md5sum s (.act (.tick now))
        { s with world := { s.world with clock := now } }
  | arrive {s : LockedProxy} (fuel : ℕ) (cacheFile : Option FileHandle) (job : Job)
      (serverAddress : Address) (path hostname : List UInt8) (pieces : List (List UInt8))
      (hresponse : CompleteResponse pieces) :
      LockedStep ttl md5sum s (.act (.arrive job path cacheFile))
        { s with requests := s.requests ++
            [(⟨handleValidRequest fuel cacheFile job serverAddress path hostname,
              View.start pieces, [], job, cacheFile⟩, none)] }
  | call {s : LockedProxy} {i : ℕ} {request : Request} {op : Op} {k : Resp op → Worker Status}
      {answer : Resp op} {w' : World} (hi : s.requests[i]? = some (request, none))
      (hprog : request.prog = .call op k) (hop : ¬op.IsCacheCall)
      (h : WorldStep ttl md5sum request.view s.world op answer w') :
      LockedStep ttl md5sum s (.act (.call i ⟨op, answer⟩))
        ({ s with world := w' }.setLine i (request.answered s.world op k answer) none)
  | lookup {s : LockedProxy} {i : ℕ} {request : Request} {url : List UInt8}
      {k : Grant → Worker Status} (hi : s.requests[i]? = some (request, none))
      (hprog : request.prog = .call (.cacheRecordGetOrCreate url) k) :
      LockedStep ttl md5sum s (.line i) (s.setLine i request (some (enterCall md5sum url)))
  | close {s : LockedProxy} {i : ℕ} {request : Request} {record : RecordRef}
      {status : ActionStatus} {k : Unit → Worker Status}
      (hi : s.requests[i]? = some (request, none))
      (hprog : request.prog = .call (.cacheRecordClose record status) k) :
      LockedStep ttl md5sum s (.line i)
        (s.setLine i request (some (.closeLock record.address status)))
  | line {s : LockedProxy} {i : ℕ} {request : Request} {pc pc' : CallPc} {sh' : CacheShared}
      (hi : s.requests[i]? = some (request, some pc)) (hpc : ¬pc.Returned)
      (h : CallStep ttl i s.shared pc sh' pc') (hgrant : pc'.grant = pc.grant) :
      LockedStep ttl md5sum s (.line i) ((s.setShared sh').setLine i request (some pc'))
  | refuse {s : LockedProxy} {i : ℕ} {request : Request} {url : List UInt8}
      {k : Grant → Worker Status} (hi : s.requests[i]? = some (request, some .refused))
      (hprog : request.prog = .call (.cacheRecordGetOrCreate url) k) :
      LockedStep ttl md5sum s
        (.act (.call i ⟨.cacheRecordGetOrCreate url, Grant.unavailable none⟩))
        (s.setLine i (request.answered s.world (.cacheRecordGetOrCreate url) k (.unavailable none))
          none)
  | grant {s : LockedProxy} {i r : ℕ} {request : Request} {url : List UInt8}
      {k : Grant → Worker Status} {status : ActionStatus} {pc pc' : CallPc} {sh' : CacheShared}
      (hi : s.requests[i]? = some (request, some pc))
      (hprog : request.prog = .call (.cacheRecordGetOrCreate url) k)
      (h : CallStep ttl i s.shared pc sh' pc') (hpc : pc.grant = none)
      (hpc' : pc'.grant = some (r, status)) :
      LockedStep ttl md5sum s
        (.act (.call i ⟨.cacheRecordGetOrCreate url, grantOf ⟨r, md5sum url⟩ status⟩))
        (((s.setShared sh').remember request r status).setLine i
          (request.answered s.world (.cacheRecordGetOrCreate url) k
            (grantOf ⟨r, md5sum url⟩ status)) (some pc'))
  | release {s : LockedProxy} {i : ℕ} {request : Request} {record : RecordRef}
      {status : ActionStatus} {k : Unit → Worker Status} {pc pc' : CallPc} {sh' : CacheShared}
      {grant : ℕ × ActionStatus} (hi : s.requests[i]? = some (request, some pc))
      (hprog : request.prog = .call (.cacheRecordClose record status) k)
      (h : CallStep ttl i s.shared pc sh' pc') (hpc : pc.grant = some grant)
      (hpc' : pc'.grant = none) :
      LockedStep ttl md5sum s (.act (.call i ⟨.cacheRecordClose record status, ()⟩))
        ((s.setShared sh').setLine i
          (request.answered s.world (.cacheRecordClose record status) k ()) (some pc'))
  | back {s : LockedProxy} {i : ℕ} {request : Request} {pc : CallPc}
      (hi : s.requests[i]? = some (request, some pc)) (hpc : pc.Returned) :
      LockedStep ttl md5sum s (.line i) (s.setLine i request none)

/-- The table starts empty with its mutexes free. -/
def lockedSystem (ttl : ℤ) (md5sum : List UInt8 → List UInt8) : System LockedProxy LockedLabel where
  Init s := s.world.content = [] ∧ s.tableMutex = none ∧ (∀ r, s.recordMutex r = none) ∧
    s.requests = []
  Step := LockedStep ttl md5sum

/-- The requests as they are seen from outside the cache. -/
def LockedProxy.proxy (s : LockedProxy) : ProxyState := ⟨s.world, s.requests.map Prod.fst⟩

def LockedUndisturbed (s : LockedProxy) : LockedLabel → Prop
  | .act label => Undisturbed s.proxy label
  | .line _ => True

def lockedEvents (md5sum : List UInt8 → List UInt8) (s : LockedProxy) (label : LockedLabel)
    (s' : LockedProxy) : List CacheEvent :=
  match label with
  | .act label => proxyEvents md5sum s.proxy label s'.proxy
  | .line _ => []

/-- The undisturbed runs with the log of their lookups. -/
def lockedHistory (ttl : ℤ) (md5sum : List UInt8 → List UInt8) :
    System (LockedProxy × List CacheEvent) LockedLabel :=
  ((lockedSystem ttl md5sum).guarded LockedUndisturbed).logged (lockedEvents md5sum)

/-! ## Where a request is in the cache -/

/-- The line at which a request is fits the call it makes. -/
inductive LineOf (md5sum : List UInt8 → List UInt8) (content : CacheTable) (request : Request) :
    CallPc → Prop
  | asked {url : List UInt8} {k : Grant → Worker Status} {pc : CallPc}
      (hprog : request.prog = .call (.cacheRecordGetOrCreate url) k)
      (hlen : ¬url.length > urlMaxLength)
      (hasked : SameCall content pc (.asked (md5sum url))) : LineOf md5sum content request pc
  | refused {url : List UInt8} {k : Grant → Worker Status}
      (hprog : request.prog = .call (.cacheRecordGetOrCreate url) k)
      (hlen : url.length > urlMaxLength) : LineOf md5sum content request .refused
  | unlockRecord (r : ℕ) (status : ActionStatus) :
      LineOf md5sum content request (.unlockRecord r status)
  | unlockTable (r : ℕ) (status : ActionStatus) :
      LineOf md5sum content request (.unlockTable r status)
  | granted (r : ℕ) (status : ActionStatus) : LineOf md5sum content request (.granted r status)
  | closeLock {record : RecordRef} {status : ActionStatus} {k : Unit → Worker Status}
      (hprog : request.prog = .call (.cacheRecordClose record status) k) :
      LineOf md5sum content request (.closeLock record.address status)
  | closeUpdate {record : RecordRef} {status : ActionStatus} {k : Unit → Worker Status}
      (hprog : request.prog = .call (.cacheRecordClose record status) k) :
      LineOf md5sum content request (.closeUpdate record.address status)
  | closeUnlock (r : ℕ) : LineOf md5sum content request (.closeUnlock r)
  | closed : LineOf md5sum content request .closed

/-- The lines of all requests; a request outside the cache has nothing to do there. -/
def LockedProxy.lines (s : LockedProxy) : CacheState :=
  ⟨s.shared, s.requests.map fun request ↦ request.2.getD .closed⟩

structure LockedInv (md5sum : List UInt8 → List UInt8) (s : LockedProxy) : Prop where
  line : ∀ (i : ℕ) (request : Request) (pc : CallPc), s.requests[i]? = some (request, some pc) →
    LineOf md5sum s.world.content request pc
  table : TableLocked s.lines
  keys : KeysUnique s.lines

/-! ## One call at a time has the table -/

theorem getElem?_set_cases {α : Type} {l : List α} {a b : α} (h : (l.set i a)[j]? = some b) :
    j = i ∧ b = a ∨ j ≠ i ∧ l[j]? = some b := by
  by_cases hij : j = i
  · subst hij
    have hlt : j < l.length := by simpa using (List.getElem?_eq_some_iff.mp h).1
    rw [List.getElem?_set_self hlt] at h
    exact .inl ⟨rfl, (Option.some.inj h).symm⟩
  · rw [List.getElem?_set_ne (Ne.symm hij)] at h
    exact .inr ⟨hij, h⟩

section

variable {c : CacheState}

theorem TableLocked.set (hc : TableLocked c) (hmutex : sh'.tableMutex = c.shared.tableMutex)
    (hpc' : ¬pc'.OwnsTable) : TableLocked ⟨sh', c.calls.set i pc'⟩ := by
  intro j q hq howns
  rcases getElem?_set_cases hq with ⟨-, rfl⟩ | ⟨-, hold⟩
  · exact absurd howns hpc'
  · exact hmutex.trans (hc j q hold howns)

theorem TableLocked.append (hc : TableLocked c) (hpc : ¬pc.OwnsTable) :
    TableLocked ⟨c.shared, c.calls ++ [pc]⟩ := by
  intro j q hq howns
  rcases getElem?_append_new hq with hold | rfl
  · exact hc j q hold howns
  · exact absurd howns hpc

theorem TableLocked.advance (hc : TableLocked c) (hpc : c.calls[i]? = some pc)
    (h : CallStep ttl i c.shared pc sh' pc') : TableLocked ⟨sh', c.calls.set i pc'⟩ := by
  intro j q hq howns
  rcases getElem?_set_cases hq with ⟨rfl, rfl⟩ | ⟨hji, hold⟩
  · rcases h.ownsTable with ⟨hsame, hback⟩ | ⟨-, hlocked⟩ | ⟨-, -, hout⟩
    · exact hsame.trans (hc _ pc hpc (hback howns))
    · exact hlocked
    · exact absurd howns hout
  · have hmine := hc j q hold howns
    rcases h.ownsTable with ⟨hsame, -⟩ | ⟨hfree, -⟩ | ⟨hout, -, -⟩
    · exact hsame.trans hmine
    · exact absurd (hfree.symm.trans hmine) (by simp)
    · exact absurd (Option.some.inj (hmine.symm.trans (hc i pc hpc hout))) hji

theorem KeysUnique.set (hc : KeysUnique c) (hcontent : sh'.content = c.shared.content)
    (hpc' : ¬pc'.OwnsTable) : KeysUnique ⟨sh', c.calls.set i pc'⟩ := by
  refine ⟨hcontent.symm ▸ hc.nodup, fun j key hj ↦ ?_⟩
  rcases getElem?_set_cases hj with ⟨-, rfl⟩ | ⟨-, hold⟩
  · exact absurd trivial hpc'
  · exact hcontent.symm ▸ hc.fresh j key hold

theorem KeysUnique.append (hc : KeysUnique c) (hpc : ¬pc.OwnsTable) :
    KeysUnique ⟨c.shared, c.calls ++ [pc]⟩ := by
  refine ⟨hc.nodup, fun j key hj ↦ ?_⟩
  rcases getElem?_append_new hj with hold | rfl
  · exact hc.fresh j key hold
  · exact absurd trivial hpc

/-- Only the call that has the table adds a record to it. -/
theorem KeysUnique.advance (hc : KeysUnique c) (hlock : TableLocked c)
    (hpc : c.calls[i]? = some pc) (h : CallStep ttl i c.shared pc sh' pc') :
    KeysUnique ⟨sh', c.calls.set i pc'⟩ := by
  refine ⟨?_, fun j key hj record hrecord ↦ ?_⟩
  · rcases h.names with hsame | ⟨key, rfl, happend⟩
    · exact hsame ▸ hc.nodup
    · have hnew : key ∉ c.shared.content.map CacheRecord.name := by
        intro hmem
        obtain ⟨record, hrecord, hname⟩ := List.mem_map.mp hmem
        exact hc.fresh i key hpc record hrecord hname
      rw [happend]
      exact List.nodup_append.mpr ⟨hc.nodup, List.nodup_singleton key, fun a ha b hb hab ↦
        hnew (by rwa [← List.mem_singleton.mp hb, ← hab])⟩
  · rcases getElem?_set_cases hj with ⟨rfl, rfl⟩ | ⟨hji, hold⟩
    · obtain ⟨rfl, hnone⟩ := h.to_create
      exact hashFind_none hnone record hrecord
    · have hname : record.name ∈ sh'.content.map CacheRecord.name := List.mem_map_of_mem hrecord
      rcases h.names with hsame | ⟨key', rfl, -⟩
      · obtain ⟨record', hrecord', hname'⟩ := List.mem_map.mp (hsame ▸ hname)
        exact hname' ▸ hc.fresh j key hold record' hrecord'
      · have hmine := hlock j _ hold trivial
        exact absurd (Option.some.inj (hmine.symm.trans (hlock i _ hpc trivial))) hji

end

/-! ## Every line keeps to its call -/

theorem LineOf.mono (h : LineOf md5sum content request pc)
    (hnames : content.map CacheRecord.name <+: content'.map CacheRecord.name) :
    LineOf md5sum content' request pc := by
  cases h with
  | asked hprog hlen hasked => exact .asked hprog hlen (hasked.mono hnames)
  | refused hprog hlen => exact .refused hprog hlen
  | closeLock hprog => exact .closeLock hprog
  | closeUpdate hprog => exact .closeUpdate hprog
  | unlockRecord => exact .unlockRecord _ _
  | unlockTable => exact .unlockTable _ _
  | granted => exact .granted _ _
  | closeUnlock => exact .closeUnlock _
  | closed => exact .closed

theorem lineOf_enterCall {url : List UInt8} {k : Grant → Worker Status}
    (hprog : request.prog = .call (.cacheRecordGetOrCreate url) k) :
    LineOf md5sum content request (enterCall md5sum url) := by
  unfold enterCall
  split
  next hlen => exact .refused hprog hlen
  next hlen => exact .asked hprog hlen (.lockTable _)

/-- A line that neither decides nor closes. -/
theorem CallStep.quiet {sh : CacheShared} (h : CallStep ttl i sh pc sh' pc')
    (hgrant : pc'.grant = pc.grant) : sh'.content = sh.content ∧ sh'.clock = sh.clock := by
  cases h with
  | create => cases hgrant
  | decide => cases hgrant
  | closeUpdate => cases hgrant
  | _ => exact ⟨rfl, rfl⟩

theorem LineOf.next {sh : CacheShared} (hline : LineOf md5sum sh.content request pc)
    (hpc : ¬pc.Returned) (h : CallStep ttl i sh pc sh' pc') (hgrant : pc'.grant = pc.grant) :
    LineOf md5sum sh.content request pc' := by
  cases h with
  | lockTable =>
      cases hline with
      | asked hprog hlen hasked =>
          cases hasked
          exact .asked hprog hlen (.find _)
  | miss =>
      cases hline with
      | asked hprog hlen hasked =>
          cases hasked
          exact .asked hprog hlen (.create _)
  | hit hfind =>
      cases hline with
      | asked hprog hlen hasked =>
          cases hasked
          exact .asked hprog hlen (.lockRecord (hashFind_some hfind))
  | lockRecord =>
      cases hline with
      | asked hprog hlen hasked =>
          cases hasked with
          | lockRecord hname => exact .asked hprog hlen (.decide hname)
  | closeLock =>
      cases hline with
      | asked hprog hlen hasked => cases hasked
      | closeLock hprog => exact .closeUpdate hprog
  | unlockRecord => exact .unlockTable _ _
  | unlockTable => exact .granted _ _
  | closeUnlock => exact .closed
  | close => exact absurd trivial hpc
  | create => cases hgrant
  | decide => cases hgrant
  | closeUpdate => cases hgrant

/-- What is left of a call that has decided or closed are its unlocks. -/
theorem CallStep.lineOf_grant {sh : CacheShared} {grant : ℕ × ActionStatus}
    (h : CallStep ttl i sh pc sh' pc') (hpc : pc.grant = none) (hpc' : pc'.grant = some grant) :
    LineOf md5sum content request pc' := by
  cases h with
  | create => exact .unlockTable _ _
  | decide => exact .unlockRecord _ _
  | _ => simp [CallPc.grant] at hpc hpc'

theorem CallStep.lineOf_release {sh : CacheShared} {grant : ℕ × ActionStatus}
    (h : CallStep ttl i sh pc sh' pc') (hpc : pc.grant = some grant) (hpc' : pc'.grant = none) :
    LineOf md5sum content request pc' := by
  cases h with
  | closeUpdate => exact .closeUnlock _
  | _ => simp [CallPc.grant] at hpc hpc'

theorem LockedProxy.lines_getElem? (hi : s.requests[i]? = some (request, line)) :
    s.lines.calls[i]? = some (line.getD .closed) := by
  rw [LockedProxy.lines, List.getElem?_map, hi, Option.map_some]

theorem LockedInv.setLine {u : LockedProxy} (hs : LockedInv md5sum s)
    (hrequests : u.requests = s.requests)
    (hnames : s.world.content.map CacheRecord.name <+: u.world.content.map CacheRecord.name)
    (hline : ∀ pc, line = some pc → LineOf md5sum u.world.content request pc)
    (htable : TableLocked ⟨u.shared, s.lines.calls.set i (line.getD .closed)⟩)
    (hkeys : KeysUnique ⟨u.shared, s.lines.calls.set i (line.getD .closed)⟩) :
    LockedInv md5sum (u.setLine i request line) := by
  have hlines : (u.setLine i request line).lines =
      ⟨u.shared, s.lines.calls.set i (line.getD .closed)⟩ := by
    simp [LockedProxy.lines, LockedProxy.setLine, LockedProxy.shared, hrequests, List.map_set]
  refine ⟨fun j request' pc hj ↦ ?_, hlines ▸ htable, hlines ▸ hkeys⟩
  rw [LockedProxy.setLine, hrequests] at hj
  rcases getElem?_set_cases hj with ⟨-, hnew⟩ | ⟨-, hold⟩
  · obtain ⟨rfl, hpc⟩ := Prod.mk.inj hnew
    exact hline pc hpc.symm
  · exact (hs.line j request' pc hold).mono hnames

/-- A request comes to a line that is none of the table's. -/
theorem LockedInv.enter {u : LockedProxy} (hs : LockedInv md5sum s)
    (hrequests : u.requests = s.requests) (hcontent : u.world.content = s.world.content)
    (hmutex : u.tableMutex = s.tableMutex)
    (hline : ∀ pc, line = some pc → LineOf md5sum s.world.content request pc)
    (hout : ¬(line.getD .closed).OwnsTable) : LockedInv md5sum (u.setLine i request line) := by
  refine hs.setLine hrequests (hcontent ▸ List.prefix_rfl) (hcontent.symm ▸ hline) ?_ ?_
  · exact hs.table.set hmutex hout
  · exact hs.keys.set hcontent hout

/-- A call of the cache goes on by a line. -/
theorem LockedInv.advance {u : LockedProxy} (hs : LockedInv md5sum s)
    (hi : s.requests[i]? = some (request, some pc)) (h : CallStep ttl i s.shared pc sh' pc')
    (hrequests : u.requests = s.requests) (hshared : u.shared = sh')
    (hline : LineOf md5sum sh'.content request' pc') :
    LockedInv md5sum (u.setLine i request' (some pc')) := by
  have hpc : s.lines.calls[i]? = some pc := LockedProxy.lines_getElem? hi
  subst hshared
  refine hs.setLine hrequests ?_ ?_ (hs.table.advance hpc h) (hs.keys.advance hs.table hpc h)
  · rcases h.names with hsame | ⟨key, -, happend⟩
    · exact hsame ▸ List.prefix_rfl
    · exact happend ▸ List.prefix_append _ _
  · rintro pc' ⟨⟩
    exact hline

theorem WorldStep.keepsCache {v : View} {op : Op} {answer : Resp op}
    (h : WorldStep ttl md5sum v w op answer w') (hop : ¬op.IsCacheCall) (hv : v.Requires op) :
    w'.content = w.content ∧ w'.clock = w.clock := by
  cases h with
  | refuse => exact absurd trivial hop
  | create => exact absurd trivial hop
  | decide => exact absurd trivial hop
  | close => exact absurd trivial hop
  | writeOther hfile =>
      obtain ⟨ref, file, -, hsome, hhandle, -⟩ := hv
      exact absurd ⟨hsome, hhandle⟩ (hfile file)
  | _ => exact ⟨rfl, rfl⟩

theorem enterCall_out (url : List UInt8) :
    ¬((some (enterCall md5sum url)).getD .closed).OwnsTable :=
  enterCall_not_ownsTable url

theorem LockedProxy.lines_arrive (s : LockedProxy) (request : Request) :
    LockedProxy.lines { s with requests := s.requests ++ [(request, none)] } =
      ⟨s.shared, s.lines.calls ++ [.closed]⟩ := by
  simp [LockedProxy.lines, LockedProxy.shared]

theorem LockedInv.step (hs : LockedInv md5sum s) (hcache : CacheInv s.proxy)
    (h : LockedStep ttl md5sum s label s') : LockedInv md5sum s' := by
  cases h with
  | tick => exact ⟨hs.line, hs.table, hs.keys.nodup, hs.keys.fresh⟩
  | arrive fuel cacheFile job serverAddress path hostname pieces hresponse =>
      refine ⟨fun i request pc hi ↦ ?_, ?_, ?_⟩
      · rcases Nat.lt_or_ge i s.requests.length with hlt | hge
        · rw [List.getElem?_append_left hlt] at hi
          exact hs.line i request pc hi
        · rw [List.getElem?_append_right hge] at hi
          cases List.mem_singleton.mp (List.mem_of_getElem? hi)
      · rw [LockedProxy.lines_arrive]
        exact hs.table.append id
      · rw [LockedProxy.lines_arrive]
        exact hs.keys.append id
  | @call i request op k answer w' hi hprog hop h =>
      have hrequest : s.proxy.requests[i]? = some request := by simp [LockedProxy.proxy, hi]
      have hkeeps := h.keepsCache hop ((hcache.requests i request hrequest).requires hprog)
      exact hs.enter (u := { s with world := w' }) rfl hkeeps.1 rfl (by simp) id
  | lookup hi hprog =>
      exact hs.enter (u := s) rfl rfl rfl
        (fun pc hpc ↦ Option.some.inj hpc ▸ lineOf_enterCall hprog) (enterCall_out _)
  | close hi hprog =>
      exact hs.enter (u := s) rfl rfl rfl (fun pc hpc ↦ Option.some.inj hpc ▸ .closeLock hprog) id
  | line hi hpc h hgrant =>
      have hline := (hs.line _ _ _ hi).next hpc h hgrant
      exact hs.advance hi h rfl rfl ((h.quiet hgrant).1 ▸ hline)
  | refuse hi hprog =>
      exact hs.enter (u := s) rfl rfl rfl (by simp) id
  | grant hi hprog h hpc hpc' => exact hs.advance hi h rfl rfl (h.lineOf_grant hpc hpc')
  | release hi hprog h hpc hpc' => exact hs.advance hi h rfl rfl (h.lineOf_release hpc hpc')
  | back hi hpc => exact hs.enter (u := s) rfl rfl rfl (by simp) id

/-! ## The lines that are seen -/

theorem LockedProxy.proxy_getElem? (hi : s.requests[i]? = some (request, line)) :
    s.proxy.requests[i]? = some request := by
  rw [LockedProxy.proxy, List.getElem?_map, hi, Option.map_some]

theorem LockedProxy.proxy_setLine (s : LockedProxy) (i : ℕ) (request : Request)
    (line : Option CallPc) :
    (s.setLine i request line).proxy = ⟨s.world, s.proxy.requests.set i request⟩ := by
  simp [LockedProxy.proxy, LockedProxy.setLine, List.map_set]

theorem LockedProxy.proxy_arrive (s : LockedProxy) (request : Request) :
    LockedProxy.proxy { s with requests := s.requests ++ [(request, none)] } =
      { s.proxy with requests := s.proxy.requests ++ [request] } := by
  simp [LockedProxy.proxy]

/-- A request that stays as it is moves inside the cache only. -/
theorem LockedProxy.proxy_stay (hi : s.requests[i]? = some (request, line))
    (line' : Option CallPc) : (s.setLine i request line').proxy = s.proxy := by
  obtain ⟨hlt, hget⟩ := List.getElem?_eq_some_iff.mp (LockedProxy.proxy_getElem? hi)
  rw [LockedProxy.proxy_setLine, ← hget, List.set_getElem_self hlt]
  rfl

theorem LockedStep.proxy_line (h : LockedStep ttl md5sum s (.line i) s') : s'.proxy = s.proxy := by
  cases h with
  | lookup hi hprog => exact LockedProxy.proxy_stay hi _
  | close hi hprog => exact LockedProxy.proxy_stay hi _
  | back hi hpc => exact LockedProxy.proxy_stay hi _
  | @line _ request pc pc' sh' hi hpc h hgrant =>
      obtain ⟨hcontent, hclock⟩ := h.quiet hgrant
      have hworld : (s.setShared sh').proxy = s.proxy := by
        rw [LockedProxy.proxy, LockedProxy.setShared, hcontent, hclock]
        rfl
      rw [← hworld]
      exact LockedProxy.proxy_stay (s := s.setShared sh') hi _

section

variable {url : List UInt8} {k : Grant → Worker Status}
  (hprog : request.prog = .call (.cacheRecordGetOrCreate url) k)
include hprog

theorem LineOf.asked_url (h : LineOf md5sum content request pc) (hpc : pc.grant = none)
    (hopen : pc.OwnsTable) :
    ¬url.length > urlMaxLength ∧ SameCall content pc (.asked (md5sum url)) := by
  cases h with
  | @asked url' k' _ hprog' hlen hasked =>
      obtain rfl : url = url' := by
        rw [hprog] at hprog'
        cases hprog'
        rfl
      exact ⟨hlen, hasked⟩
  | refused => exact hopen.elim
  | closed => exact hopen.elim
  | closeUnlock => exact hopen.elim
  | _ => cases hpc

/-- The line that decides finds the table as a lookup in a single step does. -/
theorem LockedInv.worldStep_grant (hs : LockedInv md5sum s)
    (hi : s.requests[i]? = some (request, some pc)) (h : CallStep ttl i s.shared pc sh' pc')
    (hpc : pc.grant = none) (hpc' : pc'.grant = some (r, status)) :
    WorldStep ttl md5sum request.view s.world (.cacheRecordGetOrCreate url)
      (grantOf ⟨r, md5sum url⟩ status) ((s.setShared sh').remember request r status).world := by
  have hline := hs.line i request pc hi
  cases h with
  | create hnow =>
      obtain ⟨rfl, rfl⟩ := Prod.mk.inj (Option.some.inj hpc')
      obtain ⟨hlen, hasked⟩ := hline.asked_url hprog hpc trivial
      cases hasked
      have hnone : hashFind s.world.content (md5sum url) = none := by
        rw [hashFind, List.findIdx?_eq_none_iff]
        intro record hrecord
        simpa using hs.keys.fresh i _ (LockedProxy.lines_getElem? hi) record hrecord
      exact .create hlen hnone hnow
  | @decide r record now later hrecord hnow hlater =>
      obtain ⟨rfl, rfl⟩ := Prod.mk.inj (Option.some.inj hpc')
      obtain ⟨hlen, hasked⟩ := hline.asked_url hprog hpc trivial
      cases hasked with
      | decide hname =>
          have hrecordName : record.name = md5sum url := by
            change s.world.content[_]? = some record at hrecord
            simpa [hrecord] using hname
          rw [← hrecordName]
          exact .decide hlen (hashFind_of_getElem? hs.keys.nodup hname) hrecord hnow hlater
  | _ => simp [CallPc.grant] at hpc hpc'

end

/-- The line that closes does what a close in a single step does. -/
theorem LockedInv.worldStep_release {record : RecordRef} {k : Unit → Worker Status}
    {grant : ℕ × ActionStatus} (hs : LockedInv md5sum s)
    (hi : s.requests[i]? = some (request, some pc))
    (hprog : request.prog = .call (.cacheRecordClose record status) k)
    (h : CallStep ttl i s.shared pc sh' pc') (hpc : pc.grant = some grant)
    (hpc' : pc'.grant = none) :
    WorldStep ttl md5sum request.view s.world (.cacheRecordClose record status) ()
      (s.setShared sh').world := by
  have hline := hs.line i request pc hi
  cases h with
  | closeUpdate hrecord =>
      cases hline with
      | asked hprog' hlen hasked => cases hasked
      | closeUpdate hprog' =>
          rw [hprog] at hprog'
          cases hprog'
          exact .close hrecord
  | _ => simp [CallPc.grant] at hpc hpc'

theorem LockedStep.proxy_act {label : ProxyLabel} (hs : LockedInv md5sum s)
    (h : LockedStep ttl md5sum s (.act label) s') :
    ProxyStep ttl md5sum s.proxy label s'.proxy := by
  cases h with
  | tick hnow => exact .tick hnow
  | arrive fuel cacheFile job serverAddress path hostname pieces hresponse =>
      rw [LockedProxy.proxy_arrive]
      exact .arrive fuel cacheFile job serverAddress path hostname pieces hresponse
  | call hi hprog hop h =>
      rw [LockedProxy.proxy_setLine]
      exact .call (LockedProxy.proxy_getElem? hi) hprog h
  | @refuse i request url k hi hprog =>
      rw [LockedProxy.proxy_setLine]
      refine .call (LockedProxy.proxy_getElem? hi) hprog (.refuse ?_)
      cases hs.line i request _ hi with
      | asked hprog' hlen hasked => cases hasked
      | refused hprog' hlen =>
          rw [hprog] at hprog'
          cases hprog'
          exact hlen
  | grant hi hprog h hpc hpc' =>
      rw [LockedProxy.proxy_setLine]
      exact .call (LockedProxy.proxy_getElem? hi) hprog (hs.worldStep_grant hprog hi h hpc hpc')
  | release hi hprog h hpc hpc' =>
      rw [LockedProxy.proxy_setLine]
      exact .call (LockedProxy.proxy_getElem? hi) hprog (hs.worldStep_release hi hprog h hpc hpc')

/-- Seen from outside the cache, the lookups and closes are single steps. -/
theorem lockedHistory_proxy {p : LockedProxy × List CacheEvent}
    (hp : (lockedHistory ttl md5sum).Reachable p) :
    (proxyHistory ttl md5sum).Reachable (p.1.proxy, p.2) ∧ LockedInv md5sum p.1 := by
  induction hp with
  | @init p h =>
      obtain ⟨⟨hcontent, -, -, hrequests⟩, hlog⟩ := h
      refine ⟨.init ⟨⟨hcontent, ?_⟩, hlog⟩, by simp [hrequests], ?_, ?_, ?_⟩
      · rw [LockedProxy.proxy, hrequests, List.map_nil]
      · intro i pc hpc
        simp [LockedProxy.lines, hrequests] at hpc
      · simp [LockedProxy.lines, LockedProxy.shared, hcontent]
      · simp [LockedProxy.lines, hrequests]
  | @step p p' label hp h ih =>
      obtain ⟨⟨hguard, hstep⟩, hlog⟩ := h
      obtain ⟨hproxy, hinv⟩ := ih
      refine ⟨?_, hinv.step (cacheInv_reachable hproxy.of_logged) hstep⟩
      rw [hlog]
      cases label with
      | act label => exact hproxy.log ⟨hguard, hstep.proxy_act hinv⟩
      | line i =>
          rw [hstep.proxy_line]
          simpa [lockedEvents] using hproxy

/-! ## Single steps, line by line -/

section

variable {u : LockedProxy} {log : List CacheEvent}

/-- A step that is not seen leaves the log as it is. -/
theorem LockedStep.unseen (h : LockedStep ttl md5sum s (.line i) s')
    (hs : (lockedHistory ttl md5sum).Reachable (s, log)) :
    (lockedHistory ttl md5sum).Reachable (s', log) := by
  have hguard : LockedUndisturbed s (.line i) := trivial
  exact hs.step ⟨⟨hguard, h⟩, (List.append_nil log).symm⟩

theorem LockedStep.seen {label : ProxyLabel} (h : LockedStep ttl md5sum s (.act label) s')
    (hs : (lockedHistory ttl md5sum).Reachable (s, log)) (hguard : Undisturbed s.proxy label) :
    (lockedHistory ttl md5sum).Reachable
      (s', log ++ proxyEvents md5sum s.proxy label s'.proxy) := by
  have hguard' : LockedUndisturbed s (.act label) := hguard
  exact hs.step ⟨⟨hguard', h⟩, rfl⟩

/-- Each line takes the place of the one before it. -/
theorem LockedProxy.setLine_setLine (u : LockedProxy) (i : ℕ) (request request' : Request)
    (line line' : Option CallPc) :
    (u.setLine i request line).setLine i request' line' = u.setLine i request' line' := by
  simp [LockedProxy.setLine, List.set_set]

theorem LockedProxy.setLine_getElem? (hi : i < u.requests.length) (request : Request)
    (line : Option CallPc) : (u.setLine i request line).requests[i]? = some (request, line) :=
  List.getElem?_set_self hi

section

variable (hu : (lockedHistory ttl md5sum).Reachable (u.setLine i request (some pc), log))
include hu

theorem reachable_line (hi : i < u.requests.length) (hpc : ¬pc.Returned)
    (h : CallStep ttl i u.shared pc sh' pc') (hgrant : pc'.grant = pc.grant) :
    (lockedHistory ttl md5sum).Reachable ((u.setShared sh').setLine i request (some pc'), log) := by
  have hline := (LockedStep.line (LockedProxy.setLine_getElem? hi _ _) hpc h hgrant).unseen hu
  exact (LockedProxy.setLine_setLine (u.setShared sh') ..) ▸ hline

theorem reachable_back (hi : i < u.requests.length) (hpc : pc.Returned) :
    (lockedHistory ttl md5sum).Reachable (u.setLine i request none, log) := by
  have hback := (LockedStep.back (LockedProxy.setLine_getElem? hi _ _) hpc).unseen hu
  rwa [LockedProxy.setLine_setLine] at hback

section

variable (hi : u.requests[i]? = some (request, line))
include hi

theorem reachable_grant {url : List UInt8} {k : Grant → Worker Status}
    (hprog : request.prog = .call (.cacheRecordGetOrCreate url) k)
    (hlen : ¬url.length > urlMaxLength) (h : CallStep ttl i u.shared pc sh' pc')
    (hpc : pc.grant = none) (hpc' : pc'.grant = some (r, status))
    (hguard : Undisturbed u.proxy
      (.call i ⟨.cacheRecordGetOrCreate url, grantOf ⟨r, md5sum url⟩ status⟩)) :
    (lockedHistory ttl md5sum).Reachable
      (((u.setShared sh').remember request r status).setLine i
        (request.answered u.world (.cacheRecordGetOrCreate url) k (grantOf ⟨r, md5sum url⟩ status))
        (some pc'),
        log ++ [.answered i (md5sum url) status sh'.clock]) := by
  have hlt := (List.getElem?_eq_some_iff.mp hi).1
  have hgrant := (LockedStep.grant (LockedProxy.setLine_getElem? hlt _ _) hprog h hpc hpc').seen hu
    (LockedProxy.proxy_stay hi _ ▸ hguard)
  rw [proxyEvents, if_neg hlen, grantOf_action] at hgrant
  exact (LockedProxy.setLine_setLine ((u.setShared sh').remember request r status) ..) ▸ hgrant

theorem reachable_release {record : RecordRef} {k : Unit → Worker Status} {grant : ℕ × ActionStatus}
    (hprog : request.prog = .call (.cacheRecordClose record status) k)
    (h : CallStep ttl i u.shared pc sh' pc') (hpc : pc.grant = some grant)
    (hpc' : pc'.grant = none)
    (hguard : Undisturbed u.proxy (.call i ⟨.cacheRecordClose record status, ()⟩)) :
    (lockedHistory ttl md5sum).Reachable
      ((u.setShared sh').setLine i
        (request.answered u.world (.cacheRecordClose record status) k ()) (some pc'),
        log ++ [.closed i]) := by
  have hlt := (List.getElem?_eq_some_iff.mp hi).1
  have hrelease := (LockedStep.release (LockedProxy.setLine_getElem? hlt _ _) hprog h hpc hpc').seen
    hu
    (LockedProxy.proxy_stay hi _ ▸ hguard)
  exact (LockedProxy.setLine_setLine (u.setShared sh') ..) ▸ hrelease

end

end

end

/-- Nobody is in the cache. -/
def ProxyState.underLocks (p : ProxyState) : LockedProxy :=
  ⟨p.world, none, fun _ ↦ none, p.requests.map fun request ↦ (request, none)⟩

variable {p p' : ProxyState} {log : List CacheEvent}

theorem proxy_underLocks (p : ProxyState) : p.underLocks.proxy = p := by
  simp [ProxyState.underLocks, LockedProxy.proxy, Function.comp_def]

theorem ProxyState.underLocks_getElem? (hi : p.requests[i]? = some request) :
    p.underLocks.requests[i]? = some (request, none) := by
  rw [ProxyState.underLocks, List.getElem?_map, hi, Option.map_some]

theorem ProxyState.underLocks_set (p : ProxyState) (w : World) (i : ℕ) (request : Request) :
    ProxyState.underLocks ⟨w, p.requests.set i request⟩ =
      LockedProxy.setLine { p.underLocks with world := w } i request none := by
  simp [ProxyState.underLocks, LockedProxy.setLine, List.map_set]

/-- A mutex that was free is free again. -/
theorem reachable_released {requests : List (Request × Option CallPc)}
    (h : (lockedHistory ttl md5sum).Reachable
      (⟨w, none, Function.update (Function.update (fun _ ↦ none) r (some i)) r none, requests⟩,
        log)) :
    (lockedHistory ttl md5sum).Reachable (⟨w, none, fun _ ↦ none, requests⟩, log) := by
  have hfree : Function.update (fun _ ↦ none) r none = fun _ : ℕ ↦ (none : Option ℕ) :=
    Function.update_eq_self r _
  rwa [Function.update_idem, hfree] at h

section

variable (hp : (lockedHistory ttl md5sum).Reachable (p.underLocks, log))
  (hi : p.requests[i]? = some request)
include hp hi

theorem reachable_underLocks_create {url : List UInt8} {k : Grant → Worker Status} {now : ℤ}
    (hprog : request.prog = .call (.cacheRecordGetOrCreate url) k)
    (hguard : Undisturbed p.underLocks.proxy
      (.call i ⟨.cacheRecordGetOrCreate url, .shouldWrite ⟨p.world.content.length, md5sum url⟩⟩))
    (hlen : ¬url.length > urlMaxLength) (hfind : hashFind p.world.content (md5sum url) = none)
    (hnow : p.world.clock ≤ now) :
    (lockedHistory ttl md5sum).Reachable
      (ProxyState.underLocks ⟨{ p.world with
          content := p.world.content ++ [cacheRecordCreate ttl (md5sum url) now]
          clock := now
          responses := Function.update p.world.responses p.world.content.length
            request.view.response },
        p.requests.set i (request.answered p.world (.cacheRecordGetOrCreate url) k
          (.shouldWrite ⟨p.world.content.length, md5sum url⟩))⟩,
        log ++ [.answered i (md5sum url) .shouldWrite now]) := by
  have hi' := ProxyState.underLocks_getElem? hi
  have hlt := (List.getElem?_eq_some_iff.mp hi').1
  have hlookup := (LockedStep.lookup hi' hprog).unseen hp
  rw [enterCall, if_neg hlen] at hlookup
  have hmiss := reachable_line (reachable_line hlookup hlt id (.lockTable rfl) rfl) hlt id
    (.miss hfind) rfl
  have hgrant := reachable_grant hmiss hi' hprog hlen (.create hnow) rfl rfl hguard
  have hunlock := reachable_line hgrant hlt id .unlockTable rfl
  rw [ProxyState.underLocks_set]
  exact reachable_back hunlock hlt trivial

theorem reachable_underLocks_decide {url : List UInt8} {k : Grant → Worker Status}
    {record : CacheRecord} {now later : ℤ}
    (hprog : request.prog = .call (.cacheRecordGetOrCreate url) k)
    (hguard : Undisturbed p.underLocks.proxy (.call i ⟨.cacheRecordGetOrCreate url,
      grantOf ⟨r, md5sum url⟩ (cacheRecordDecide ttl record now later).1⟩))
    (hlen : ¬url.length > urlMaxLength) (hfind : hashFind p.world.content (md5sum url) = some r)
    (hrecord : p.world.content[r]? = some record) (hnow : p.world.clock ≤ now)
    (hlater : now ≤ later) :
    (lockedHistory ttl md5sum).Reachable
      (ProxyState.underLocks ⟨{ p.world with
          content := p.world.content.set r (cacheRecordDecide ttl record now later).2
          clock := later
          responses := if (cacheRecordDecide ttl record now later).1 = .shouldWrite then
            Function.update p.world.responses r request.view.response else p.world.responses },
        p.requests.set i (request.answered p.world (.cacheRecordGetOrCreate url) k
          (grantOf ⟨r, md5sum url⟩ (cacheRecordDecide ttl record now later).1))⟩,
        log ++ [.answered i (md5sum url) (cacheRecordDecide ttl record now later).1 later]) := by
  have hi' := ProxyState.underLocks_getElem? hi
  have hlt := (List.getElem?_eq_some_iff.mp hi').1
  have hlookup := (LockedStep.lookup hi' hprog).unseen hp
  rw [enterCall, if_neg hlen] at hlookup
  have hhit := reachable_line (reachable_line hlookup hlt id (.lockTable rfl) rfl) hlt id
    (.hit hfind) rfl
  have hlock := reachable_line hhit hlt id (.lockRecord rfl) rfl
  have hgrant := reachable_grant hlock hi' hprog hlen (.decide hrecord hnow hlater) rfl rfl hguard
  have hunlock := reachable_line (reachable_line hgrant hlt id .unlockRecord rfl) hlt id
    .unlockTable rfl
  rw [ProxyState.underLocks_set]
  exact reachable_released (reachable_back hunlock hlt trivial)

theorem reachable_underLocks_close {record : RecordRef} {k : Unit → Worker Status}
    {current : CacheRecord} (hprog : request.prog = .call (.cacheRecordClose record status) k)
    (hguard : Undisturbed p.underLocks.proxy (.call i ⟨.cacheRecordClose record status, ()⟩))
    (hcurrent : p.world.content[record.address]? = some current) :
    (lockedHistory ttl md5sum).Reachable
      (ProxyState.underLocks ⟨{ p.world with
          content := p.world.content.set record.address (cacheRecordUpdate current status) },
        p.requests.set i (request.answered p.world (.cacheRecordClose record status) k ())⟩,
        log ++ [.closed i]) := by
  have hi' := ProxyState.underLocks_getElem? hi
  have hlt := (List.getElem?_eq_some_iff.mp hi').1
  have hclose := (LockedStep.close hi' hprog).unseen hp
  have hlock := reachable_line hclose hlt id (.closeLock rfl) rfl
  have hrelease := reachable_release hlock hi' hprog (.closeUpdate hcurrent) rfl rfl hguard
  have hunlock := reachable_line hrelease hlt id .closeUnlock rfl
  rw [ProxyState.underLocks_set]
  exact reachable_released (reachable_back hunlock hlt trivial)

theorem reachable_underLocks_call {op : Op} {k : Resp op → Worker Status} {answer : Resp op}
    (hprog : request.prog = .call op k)
    (hguard : Undisturbed p.underLocks.proxy (.call i ⟨op, answer⟩))
    (h : WorldStep ttl md5sum request.view p.world op answer w') :
    (lockedHistory ttl md5sum).Reachable
      (ProxyState.underLocks ⟨w', p.requests.set i (request.answered p.world op k answer)⟩,
        log ++ proxyEvents md5sum p (.call i ⟨op, answer⟩)
          ⟨w', p.requests.set i (request.answered p.world op k answer)⟩) := by
  have hi' := ProxyState.underLocks_getElem? hi
  have hlt := (List.getElem?_eq_some_iff.mp hi').1
  by_cases hop : op.IsCacheCall
  · cases h with
    | refuse hlen =>
        have hlookup := (LockedStep.lookup hi' hprog).unseen hp
        rw [enterCall, if_pos hlen] at hlookup
        have hrefuse := (LockedStep.refuse (LockedProxy.setLine_getElem? hlt _ _) hprog).seen
          hlookup (LockedProxy.proxy_stay hi' _ ▸ hguard)
        rw [LockedProxy.setLine_setLine] at hrefuse
        simp only [proxyEvents, if_pos hlen] at hrefuse ⊢
        rw [ProxyState.underLocks_set]
        exact hrefuse
    | create hlen hfind hnow =>
        simp only [proxyEvents, if_neg hlen]
        exact reachable_underLocks_create hp hi hprog hguard hlen hfind hnow
    | @decide url r record now later hlen hfind hrecord hnow hlater =>
        have hname : record.name = md5sum url := by
          simpa [List.getElem?_map, hrecord] using hashFind_some hfind
        rw [hname] at hguard ⊢
        simp only [proxyEvents, if_neg hlen, grantOf_action]
        exact reachable_underLocks_decide hp hi hprog hguard hlen hfind hrecord hnow hlater
    | close hcurrent => exact reachable_underLocks_close hp hi hprog hguard hcurrent
    | @other op hreads answer =>
        cases op with
        | cacheRecordGetOrCreate url => exact absurd trivial hreads
        | cacheRecordClose record status => exact absurd trivial hreads
        | _ => exact hop.elim
    | _ => exact hop.elim
  · have hcall := (LockedStep.call hi' hprog hop h).seen hp hguard
    rw [LockedProxy.proxy_setLine] at hcall
    rw [ProxyState.underLocks_set]
    exact hcall

end

theorem ProxyStep.underLocks {label : ProxyLabel} (h : ProxyStep ttl md5sum p label p')
    (hguard : Undisturbed p label)
    (hp : (lockedHistory ttl md5sum).Reachable (p.underLocks, log)) :
    (lockedHistory ttl md5sum).Reachable
      (p'.underLocks, log ++ proxyEvents md5sum p label p') := by
  have hguard' : Undisturbed p.underLocks.proxy label := (proxy_underLocks p).symm ▸ hguard
  cases h with
  | tick hnow => exact (LockedStep.tick hnow).seen hp hguard'
  | arrive fuel cacheFile job serverAddress path hostname pieces hresponse =>
      have harrive := (LockedStep.arrive fuel cacheFile job serverAddress path hostname pieces
        hresponse).seen hp hguard'
      simpa [ProxyState.underLocks, proxyEvents] using harrive
  | call hi hprog h => exact reachable_underLocks_call hp hi hprog hguard' h

/-- Every run with single steps can be made line by line. -/
theorem proxyHistory_underLocks {q : ProxyState × List CacheEvent}
    (hq : (proxyHistory ttl md5sum).Reachable q) :
    (lockedHistory ttl md5sum).Reachable (q.1.underLocks, q.2) := by
  induction hq with
  | init h =>
      obtain ⟨⟨hcontent, hrequests⟩, hlog⟩ := h
      refine .init ⟨⟨hcontent, rfl, fun _ ↦ rfl, ?_⟩, hlog⟩
      rw [ProxyState.underLocks, hrequests, List.map_nil]
  | step hq h ih =>
      obtain ⟨⟨hguard, hstep⟩, hlog⟩ := h
      rw [hlog]
      exact ProxyStep.underLocks hstep hguard ih

/-- The locks of the cache make its calls single steps of the proxy: seen from outside the cache,
an undisturbed run in which the requests take and release the mutexes line by line is one in which
each lookup and each close is a single step, with the same log, and every such run can be made
under the locks.  So under the locks, too, the cache answers with the response of the last fetch. -/
theorem lockedProxy_atomic (ttl : ℤ) (md5sum : List UInt8 → List UInt8) (log : List CacheEvent) :
    (∀ s, (lockedHistory ttl md5sum).Reachable (s, log) →
        (proxyHistory ttl md5sum).Reachable (s.proxy, log) ∧
          AnsweredFromMemory ttl (s.proxy, log)) ∧
      ∀ p, (proxyHistory ttl md5sum).Reachable (p, log) →
        (lockedHistory ttl md5sum).Reachable (p.underLocks, log) ∧ p.underLocks.proxy = p := by
  refine ⟨fun s hs ↦ ?_, fun p hp ↦ ⟨proxyHistory_underLocks hp, proxy_underLocks p⟩⟩
  have hproxy := (lockedHistory_proxy hs).1
  exact ⟨hproxy, (memoryInv_reachable hproxy).answeredFromMemory
    (cacheInv_reachable hproxy.of_logged)⟩

end HttpProxy
