import HttpProxy.CacheInvariant

/-!
# Cache transparency

Every step of a request keeps the invariant of the cache, as long as no client goes away
in the middle of a write.  So what a request sends from the cache is what the last writer
of the record was sent.
-/

namespace HttpProxy

open CString Interaction Protocol Transition ReadersWriter

variable {ttl : ℤ} {md5sum : List UInt8 → List UInt8} {s : ProxyState} {w w' : World}
  {request request' : Request} {i j : ℕ} {record record' : RecordRef}

/-! ## The calls -/

/-- What the world answers is among the answers a request can rely on. -/
theorem CacheInv.answers {op : Op} {answer : Resp op}
    (hs : CacheInv s) (hi : s.requests[i]? = some request)
    (h : WorldStep ttl md5sum request.view s.world op answer w')
    (hguard : (ClientFails op answer → request.view.MayFail) ∧
      LeavesFileUnset request.job request.cacheFile ⟨op, answer⟩) {source : List UInt8}
    (hsource : request.view.grant ≠ none → source = request.source) :
    (viewing source request.job request.cacheFile).answers request.view op answer := by
  refine ⟨hguard.1, ?_⟩
  cases h with
  | refuse => exact hguard.2
  | create => exact hguard.2
  | decide => exact hguard.2
  | read bytes hfile hbytes =>
      intro hcached hclosed file hfile' _
      obtain rfl := Option.some.inj (hfile.1.symm.trans hfile')
      obtain ⟨record, hgrant, hpath⟩ := (hs.requests i request hi).opened hcached
      have hread : request.view.Holds (.shouldRead record) := ⟨hgrant, hclosed⟩
      have hsame := hs.file_of_reader hi hread
      rw [hbytes, hpath _ hfile.1, hsame, hsource (by simp [hgrant])]
      rfl
  | readOther hfile => exact fun _ _ file hfile' hhandle ↦ absurd ⟨hfile', hhandle⟩ (hfile file)
  | receive received hpiece =>
      simp only [View.Answers]
      cases hpieces : request.view.pieces with
      | nil => trivial
      | cons piece rest => exact hpiece piece rest hpieces
  | other hop answer =>
      cases op with
      | recv socket size dontWait =>
          cases socket with
          | client fd => trivial
          | server fd => exact absurd trivial hop
      | cacheRecordGetOrCreate url => exact absurd trivial hop
      | fread handle size => exact absurd trivial hop
      | _ => trivial
  | _ => trivial

theorem View.next_grant {v : View} {op : Op} (hop : ∀ url, op ≠ .cacheRecordGetOrCreate url)
    (answer : Resp op) : (v.next op answer).grant = v.grant := by
  cases op with
  | cacheRecordGetOrCreate url => exact absurd rfl (hop url)
  | recv socket size dontWait => cases socket <;> rfl
  | send socket bytes => cases socket <;> cases answer <;> rfl
  | fopen path mode => cases mode <;> cases answer <;> rfl
  | _ => rfl

/-- A call that does not depend on the world moves at most what has been sent and where a file
is read. -/
theorem View.next_other {v : View} {op : Op} (hop : ¬ReadsWorld op) (answer : Resp op) :
    (v.next op answer).frame = v.frame ∧ (v.next op answer).written = v.written := by
  cases op with
  | recv socket size dontWait =>
      cases socket with
      | client fd => exact ⟨rfl, rfl⟩
      | server fd => exact absurd trivial hop
  | send socket bytes => cases socket <;> cases answer <;> exact ⟨rfl, rfl⟩
  | fseek handle whence offset => exact ⟨View.frame_move v handle _, rfl⟩
  | _ => first | exact absurd trivial hop | exact ⟨rfl, rfl⟩

theorem Request.answered_source {op : Op} (hop : ∀ url, op ≠ .cacheRecordGetOrCreate url)
    (k : Resp op → Worker Status) (answer : Resp op) :
    (request.answered w op k answer).source = request.source := by
  cases op with
  | cacheRecordGetOrCreate url => exact absurd rfl (hop url)
  | _ => rfl

section

variable {op : Op} {k : Resp op → Worker Status} {answer : Resp op}

theorem RequestInv.requires (h : RequestInv w request) (hprog : request.prog = .call op k) :
    request.view.Requires op := by
  have hkeeps := h.keeps request.source fun _ ↦ rfl
  rw [hprog] at hkeeps
  exact hkeeps.1

theorem RequestInv.keeps_answered (h : RequestInv w request) (hprog : request.prog = .call op k)
    (hanswers : ∀ source, (request.view.grant ≠ none → source = request.source) →
      (viewing source request.job request.cacheFile).answers request.view op answer) :
    (request.answered w op k answer).Keeps := by
  intro source hsource
  have hold : request.view.grant ≠ none → source = request.source := by
    intro hgrant
    have hop : ∀ url, op ≠ .cacheRecordGetOrCreate url := by
      rintro url rfl
      exact hgrant (h.requires hprog).1
    have hnext : (request.view.next op answer).grant = request.view.grant :=
      View.next_grant hop answer
    have hsame : source = (request.answered w op k answer).source :=
      hsource fun hnone ↦ hgrant (hnext.symm.trans hnone)
    exact hsame.trans (request.answered_source hop k answer)
  have hkeeps := h.keeps source hold
  rw [hprog] at hkeeps
  exact hkeeps.2 answer (hanswers source hold)

end

theorem Request.pc_grant_of_lookup {url : List UInt8} {k : Grant → Worker Status} {grant : Grant}
    (hclosed : request.view.closed = false) (hrecord : grant.record = some record) :
    (request.answered w (.cacheRecordGetOrCreate url) k grant).pc.grant =
      some (record.address, grant.action) := by
  have hholds : (request.answered w (.cacheRecordGetOrCreate url) k grant).view.Holds grant :=
    ⟨rfl, hclosed⟩
  exact Request.pc_grant_of_holds hholds hrecord

theorem View.Requires.close {v : View} {status : ActionStatus}
    (h : v.Requires (.cacheRecordClose record status)) :
    ∃ grant, v.Holds grant ∧ grant.record = some record ∧ grant.action = status := by
  cases status with
  | unavailable => exact ⟨_, h, rfl, rfl⟩
  | shouldRead => exact ⟨_, h, rfl, rfl⟩
  | shouldWrite => exact ⟨_, h.1, rfl, rfl⟩

theorem RequestInv.lookup {url : List UInt8} {k : Grant → Worker Status} {grant : Grant}
    (h : RequestInv w request)
    (hkeeps : (request.answered w (.cacheRecordGetOrCreate url) k grant).Keeps)
    (hnone : request.view.grant = none) (hfile : request.view.file = none)
    (hknown : ∀ record, grant.record = some record →
      ∃ current, w'.content[record.address]? = some current ∧ current.name = record.name)
    (hread : ∀ record, grant = .shouldRead record →
      w'.responses record.address = w.responses record.address)
    (hwrite : ∀ record, grant = .shouldWrite record →
      w'.responses record.address = request.view.response) :
    RequestInv w' (request.answered w (.cacheRecordGetOrCreate url) k grant) := by
  refine ⟨hkeeps, ?_, fun hcached ↦ ?_, fun record hholds ↦ ?_, fun record hholds ↦ ⟨?_, ?_⟩⟩
  · rintro _ record ⟨⟩ hrecord
    exact hknown record hrecord
  · obtain ⟨record, hgrant, -⟩ := h.opened hcached
    rw [hnone] at hgrant
    cases hgrant
  · obtain rfl : grant = .shouldRead record := Option.some.inj hholds.1
    exact (hread record rfl).symm
  · obtain rfl : grant = .shouldWrite record := Option.some.inj hholds.1
    exact hwrite record rfl
  · intro file hsome
    exact absurd (hfile.symm.trans hsome) (by simp)

section

variable (hs : CacheInv s) (hi : s.requests[i]? = some request)

include hs hi

theorem CacheInv.quiet (hpc : request'.pc = request.pc) (hself : RequestInv s.world request') :
    CacheInv ⟨s.world, s.requests.set i request'⟩ :=
  hs.update 0 hi (.keep rfl (by rw [hpc])) hs.names hs.settled hself
    fun j other _ hj ↦ hs.requests j other hj

/-- A call that leaves the world and the view's frame alone. -/
theorem CacheInv.keepsFrame (hkeeps : request'.Keeps)
    (hframe : request'.view.frame = request.view.frame)
    (hwritten : request'.view.written = request.view.written)
    (hsource : request'.source = request.source) :
    CacheInv ⟨s.world, s.requests.set i request'⟩ := by
  have hself := (hs.requests i request hi).of_frame hkeeps hframe hwritten hsource
  simp only [View.frame, Prod.mk.injEq] at hframe
  exact hs.quiet hi (Request.pc_congr hframe.2.1 hframe.2.2.1) hself

theorem CacheInv.setFile (content : List UInt8)
    (hwrite : request.view.Holds (.shouldWrite record)) (hpc : request'.pc = request.pc)
    (hself : RequestInv (s.world.setFile (cacheFilePath record) content) request') :
    CacheInv ⟨s.world.setFile (cacheFilePath record) content, s.requests.set i request'⟩ := by
  refine hs.update 0 hi (.keep rfl (by rw [hpc])) hs.names ?_ hself ?_
  · intro r current hcurrent hsettled
    have hne := hs.path_ne_of_settled hi hwrite hcurrent hsettled
    exact (Function.update_of_ne hne _ _).trans (hs.settled r current hcurrent hsettled)
  · intro j other hij hj
    refine (hs.requests j other hj).frame (.refl _) (fun _ _ _ _ _ ↦ rfl) fun record' hother ↦ ?_
    exact Function.update_of_ne (hs.path_ne_of_writer hi hj hij hwrite hother) _ _

theorem CacheInv.create {url : List UInt8} {k : Grant → Worker Status} {now : ℤ}
    (hfind : hashFind s.world.content (md5sum url) = none)
    (hrequires : request.view.Requires (.cacheRecordGetOrCreate url))
    (hkeeps : (request.answered s.world (.cacheRecordGetOrCreate url) k
      (.shouldWrite ⟨s.world.content.length, md5sum url⟩)).Keeps) :
    CacheInv ⟨{ s.world with
        content := s.world.content ++ [cacheRecordCreate ttl (md5sum url) now]
        clock := now
        responses := Function.update s.world.responses s.world.content.length
          request.view.response },
      s.requests.set i (request.answered s.world (.cacheRecordGetOrCreate url) k
        (.shouldWrite ⟨s.world.content.length, md5sum url⟩))⟩ := by
  obtain ⟨hnone, hclosed, hfile⟩ := hrequires
  have hlast : (s.world.content ++ [cacheRecordCreate ttl (md5sum url) now])[
      s.world.content.length]? = some (cacheRecordCreate ttl (md5sum url) now) := by simp
  refine hs.update ttl hi (.create (md5sum url) now ?_ rfl ?_) ?_ ?_ ?_ ?_
  · rw [Request.pc_of_none hnone]
    rfl
  · have hrecord : (Grant.shouldWrite ⟨s.world.content.length, md5sum url⟩).record =
        some ⟨s.world.content.length, md5sum url⟩ := rfl
    exact Request.pc_grant_of_lookup hclosed hrecord
  · have hnew : md5sum url ∉ s.world.content.map CacheRecord.name := by
      intro hmem
      obtain ⟨current, hcurrent, hname⟩ := List.mem_map.mp hmem
      exact hashFind_none hfind current hcurrent hname
    rw [List.map_append]
    exact List.nodup_append.mpr ⟨hs.names, by simp, by
      rintro _ ha _ hb rfl
      obtain rfl := List.mem_singleton.mp hb
      exact hnew ha⟩
  · intro r current hcurrent hsettled
    rcases Nat.lt_trichotomy r s.world.content.length with hr | rfl | hr
    · rw [List.getElem?_append_left hr] at hcurrent
      exact (hs.settled r current hcurrent hsettled).trans
        (Function.update_of_ne (Nat.ne_of_lt hr) _ _).symm
    · obtain rfl := Option.some.inj (hlast.symm.trans hcurrent)
      simp [cacheRecordCreate] at hsettled
    · rw [List.getElem?_eq_none (by simp; omega)] at hcurrent
      cases hcurrent
  · apply (hs.requests i request hi).lookup hkeeps hnone hfile
    · rintro record ⟨⟩
      exact ⟨_, hlast, rfl⟩
    · rintro record ⟨⟩
    · rintro record ⟨⟩
      exact Function.update_self ..
  · intro j other hij hj
    have hother := hs.requests j other hj
    refine hother.frame (.append _ _) (fun record grant hholds hrecord _ ↦ ?_) fun _ _ ↦ rfl
    obtain ⟨current, hcurrent, -⟩ := hother.known grant record hholds.1 hrecord
    obtain ⟨hlt, -⟩ := List.getElem?_eq_some_iff.mp hcurrent
    exact Function.update_of_ne (Nat.ne_of_lt hlt) _ _

theorem CacheInv.decide {url : List UInt8} {k : Grant → Worker Status} {r : ℕ}
    {current : CacheRecord} {now later : ℤ} (hcurrent : s.world.content[r]? = some current)
    (hrequires : request.view.Requires (.cacheRecordGetOrCreate url))
    (hkeeps : (request.answered s.world (.cacheRecordGetOrCreate url) k
      (grantOf ⟨r, current.name⟩ (cacheRecordDecide ttl current now later).1)).Keeps) :
    CacheInv ⟨{ s.world with
        content := s.world.content.set r (cacheRecordDecide ttl current now later).2
        clock := later
        responses := if (cacheRecordDecide ttl current now later).1 = .shouldWrite then
          Function.update s.world.responses r request.view.response else s.world.responses },
      s.requests.set i (request.answered s.world (.cacheRecordGetOrCreate url) k
        (grantOf ⟨r, current.name⟩ (cacheRecordDecide ttl current now later).1))⟩ := by
  obtain ⟨hnone, hclosed, hfile⟩ := hrequires
  have hsettled := @cacheRecordDecide_settled ttl now later current
  have hname := cacheRecordDecide_name ttl current now later
  have hrecord : (grantOf ⟨r, current.name⟩ (cacheRecordDecide ttl current now later).1).record =
      some ⟨r, current.name⟩ := by
    cases (cacheRecordDecide ttl current now later).1 <;> rfl
  have haction : (grantOf ⟨r, current.name⟩ (cacheRecordDecide ttl current now later).1).action =
      (cacheRecordDecide ttl current now later).1 := by
    cases (cacheRecordDecide ttl current now later).1 <;> rfl
  refine hs.update ttl hi (.open r current now later ?_ hcurrent rfl ?_) ?_ ?_ ?_ ?_
  · rw [Request.pc_of_none hnone]
    rfl
  · rw [Request.pc_grant_of_lookup hclosed hrecord, haction]
  · simp only [map_name_set hcurrent hname]
    exact hs.names
  · intro r' current' hcurrent' hsettled'
    by_cases hr : r' = r
    · subst hr
      obtain rfl := Option.some.inj ((getElem?_set_here hcurrent _).symm.trans hcurrent')
      obtain ⟨hold, hstatus⟩ := hsettled hsettled'
      rw [hname, if_neg hstatus]
      exact hs.settled r' current hcurrent hold
    · have hcurrent' : s.world.content[r']? = some current' :=
        (List.getElem?_set_ne (Ne.symm hr)).symm.trans hcurrent'
      have hsame := hs.settled r' current' hcurrent' hsettled'
      split
      · exact hsame.trans (Function.update_of_ne hr _ _).symm
      · exact hsame
  · apply (hs.requests i request hi).lookup hkeeps hnone hfile
    · intro record hsome
      obtain rfl := Option.some.inj (hrecord.symm.trans hsome)
      exact ⟨_, getElem?_set_here hcurrent _, hname⟩
    · intro record hread
      have hstatus : (cacheRecordDecide ttl current now later).1 = .shouldRead := by
        rw [← haction, hread]
        rfl
      rw [if_neg (by simp [hstatus])]
    · intro record hwrite
      have hstatus : (cacheRecordDecide ttl current now later).1 = .shouldWrite := by
        rw [← haction, hwrite]
        rfl
      obtain rfl : ⟨r, current.name⟩ = record := by
        rw [hwrite] at hrecord
        exact (Option.some.inj hrecord).symm
      rw [if_pos hstatus]
      exact Function.update_self ..
  · intro j other hij hj
    refine (hs.requests j other hj).frame (.set hcurrent hname) ?_ fun _ _ ↦ rfl
    intro record grant hholds hsome hgrant
    split
    next hstatus =>
      -- A write grant is given only while nobody holds a grant of the record.
      refine Function.update_of_ne ?_ _ _
      rintro rfl
      have hpos := openGrants_pos hj hholds hsome
      obtain ⟨hreaders, hwriters⟩ := cacheRecordDecide_shouldWrite hstatus
      obtain ⟨hread, hwrite⟩ := hs.counted.counts _ current hcurrent
      simp only [grantsOf] at hread hwrite
      cases haction' : grant.action with
      | unavailable => exact hgrant haction'
      | shouldRead =>
          rw [haction'] at hpos
          omega
      | shouldWrite =>
          rw [haction'] at hpos
          omega
    next => rfl

/-- Closing a grant.  A writer leaves its whole response in the file. -/
theorem CacheInv.close {status : ActionStatus} {k : Unit → Worker Status} {current : CacheRecord}
    (hcurrent : s.world.content[record.address]? = some current)
    (hrequires : request.view.Requires (.cacheRecordClose record status))
    (hkeeps : (request.answered s.world (.cacheRecordClose record status) k ()).Keeps) :
    CacheInv ⟨{ s.world with
        content := s.world.content.set record.address (cacheRecordUpdate current status) },
      s.requests.set i (request.answered s.world (.cacheRecordClose record status) k ())⟩ := by
  have hrequest := hs.requests i request hi
  have hname := cacheRecordUpdate_name current status
  obtain ⟨grant, hholds, hrecord, rfl⟩ := hrequires.close
  refine hs.update 0 hi (.close record.address current grant.action ?_ hcurrent rfl ?_)
    ?_ ?_ ⟨hkeeps, ?_, hrequest.opened, ?_, ?_⟩ ?_
  · exact Request.pc_grant_of_holds hholds hrecord
  · rw [Request.pc_of_closed rfl]
    rfl
  · simp only [map_name_set hcurrent hname]
    exact hs.names
  · intro r current' hcurrent' hsettled
    by_cases hr : r = record.address
    · subst hr
      obtain rfl := Option.some.inj ((getElem?_set_here hcurrent _).symm.trans hcurrent')
      rw [hname]
      cases haction : grant.action with
      | unavailable =>
          rw [haction] at hsettled
          exact hs.settled _ current hcurrent hsettled
      | shouldRead =>
          rw [haction] at hsettled
          exact hs.settled _ current hcurrent hsettled
      | shouldWrite =>
          rw [haction] at hrequires
          obtain ⟨hwrite, ⟨file, hfile, hpath⟩, hwritten⟩ := hrequires
          obtain ⟨hresponse, hfiles⟩ := hrequest.writer record hwrite
          obtain ⟨current', hcurrent', hname'⟩ := hrequest.known _ record hwrite.1 rfl
          obtain rfl := Option.some.inj (hcurrent.symm.trans hcurrent')
          have hsame := (hfiles file hfile).2
          rw [hpath] at hsame
          rw [hname', hresponse, ← hwritten]
          exact hsame
    · have hold : s.world.content[r]? = some current' :=
        (List.getElem?_set_ne (Ne.symm hr)).symm.trans hcurrent'
      exact hs.settled r current' hold hsettled
  · intro grant' record' hgrant' hrecord'
    obtain ⟨current', hcurrent', hname'⟩ := hrequest.known grant' record' hgrant' hrecord'
    obtain ⟨new, hnew, hsame⟩ := KeepsNames.set hcurrent hname _ _ hcurrent'
    exact ⟨new, hnew, hsame.trans hname'⟩
  · exact fun record' hread ↦ absurd hread.2 (by simp [Request.answered, View.next])
  · exact fun record' hwrite ↦ absurd hwrite.2 (by simp [Request.answered, View.next])
  · exact fun j other _ hj ↦ (hs.requests j other hj).frame (.set hcurrent hname)
      (fun _ _ _ _ _ ↦ rfl) fun _ _ ↦ rfl

theorem CacheInv.openRead {path : List UInt8} {k : Option FileHandle → Worker Status}
    {handle : FileHandle} (hrequires : request.view.Requires (.fopen path .read))
    (hkeeps : (request.answered s.world (.fopen path .read) k (some handle)).Keeps) :
    CacheInv ⟨s.world, s.requests.set i
      (request.answered s.world (.fopen path .read) k (some handle))⟩ := by
  have hrequest := hs.requests i request hi
  obtain ⟨-, record, hread, rfl⟩ := hrequires
  refine hs.quiet hi (Request.pc_congr rfl rfl)
    ⟨hkeeps, hrequest.known, fun _ ↦ ⟨record, hread.1, ?_⟩, hrequest.reader, ?_⟩
  · rintro _ ⟨⟩
    rfl
  · intro record' hwrite
    exact absurd (hread.1.symm.trans hwrite.1) (by simp)

theorem CacheInv.openWrite {path : List UInt8} {k : Option FileHandle → Worker Status}
    {handle : FileHandle} (hrequires : request.view.Requires (.fopen path .write))
    (hkeeps : (request.answered s.world (.fopen path .write) k (some handle)).Keeps) :
    CacheInv ⟨s.world.setFile path [], s.requests.set i
      (request.answered s.world (.fopen path .write) k (some handle))⟩ := by
  have hrequest := hs.requests i request hi
  obtain ⟨-, record, hwrite, rfl⟩ := hrequires
  refine hs.setFile hi [] hwrite (Request.pc_congr rfl rfl)
    ⟨hkeeps, hrequest.known, ?_, hrequest.reader, ?_⟩
  · exact fun hcached ↦ absurd hcached (hrequest.not_cached hwrite)
  · intro record' hwrite'
    obtain rfl : record' = record := by simpa using hwrite'.1.symm.trans hwrite.1
    refine ⟨(hrequest.writer record' hwrite).1, ?_⟩
    rintro _ ⟨⟩
    exact ⟨rfl, Function.update_self ..⟩

theorem CacheInv.write {handle : FileHandle} {bytes : List UInt8} {file : OpenedFile}
    {k : Unit → Worker Status} (hfile : request.view.Owns handle file)
    (hrequires : request.view.Requires (.fwrite handle bytes))
    (hkeeps : (request.answered s.world (.fwrite handle bytes) k ()).Keeps) :
    CacheInv ⟨s.world.setFile file.path
        ((OpenFile.mk (s.world.files file.path) file.position).write bytes).content,
      s.requests.set i (request.answered s.world (.fwrite handle bytes) k ())⟩ := by
  have hrequest := hs.requests i request hi
  obtain ⟨record, file', hwrite, hfile', rfl, hpath, hposition⟩ := hrequires
  obtain rfl := Option.some.inj (hfile.1.symm.trans hfile')
  obtain ⟨hresponse, hfiles⟩ := hrequest.writer record hwrite
  have hwritten := (hfiles file hfile').2
  have hcontent : ((OpenFile.mk (s.world.files file.path) file.position).write bytes).content =
      request.view.written ++ bytes := by
    rw [hwritten, hposition]
    simp [OpenFile.write]
  rw [hcontent, hpath]
  refine hs.setFile hi _ hwrite (Request.pc_congr rfl rfl)
    ⟨hkeeps, hrequest.known, ?_, hrequest.reader, ?_⟩
  · exact fun hcached ↦ absurd hcached (hrequest.not_cached hwrite)
  · intro record' hwrite'
    obtain rfl : record' = record := by simpa using hwrite'.1.symm.trans hwrite.1
    refine ⟨hresponse, fun file₁ hfile₁ ↦ ?_⟩
    obtain rfl : { file with position := file.position + bytes.length } = file₁ := by
      simpa [Request.answered, View.next, View.move, hfile'] using hfile₁
    refine ⟨hpath, ?_⟩
    rw [hpath]
    exact Function.update_self ..

/-- One call of a request keeps the invariant: one case for each thing the world can
do. -/
theorem CacheInv.call {op : Op} {k : Resp op → Worker Status} {answer : Resp op}
    (hprog : request.prog = .call op k)
    (h : WorldStep ttl md5sum request.view s.world op answer w')
    (hguard : (ClientFails op answer → request.view.MayFail) ∧
      LeavesFileUnset request.job request.cacheFile ⟨op, answer⟩) :
    CacheInv ⟨w', s.requests.set i (request.answered s.world op k answer)⟩ := by
  have hrequest := hs.requests i request hi
  have hrequires := hrequest.requires hprog
  have hkeeps : (request.answered s.world op k answer).Keeps :=
    hrequest.keeps_answered hprog fun source hsource ↦ hs.answers hi h hguard hsource
  cases h with
  | refuse =>
      obtain ⟨hnone, hclosed, hfile⟩ := hrequires
      refine hs.quiet hi ?_ (hrequest.lookup hkeeps hnone hfile ?_ ?_ ?_)
      · rw [Request.pc_of_none hnone]
        simp [Request.pc, Request.answered, View.next, hclosed]
      · rintro record ⟨⟩
      · rintro record ⟨⟩
      · rintro record ⟨⟩
  | create hlen hfind hnow => exact hs.create hi hfind hrequires hkeeps
  | decide hlen hfind hcurrent hnow hlater => exact hs.decide hi hcurrent hrequires hkeeps
  | close hcurrent => exact hs.close hi hcurrent hrequires hkeeps
  | openRead path opened =>
      cases opened with
      | none => exact hs.keepsFrame hi hkeeps rfl rfl rfl
      | some handle => exact hs.openRead hi hrequires hkeeps
  | openWrite path handle => exact hs.openWrite hi hrequires hkeeps
  | openFails path => exact hs.keepsFrame hi hkeeps rfl rfl rfl
  | read bytes hfile hbytes =>
      exact hs.keepsFrame hi hkeeps (View.frame_move request.view _ _) rfl rfl
  | readOther hfile bytes =>
      exact hs.keepsFrame hi hkeeps (View.frame_move request.view _ _) rfl rfl
  | write hfile => exact hs.write hi hfile hrequires hkeeps
  | writeOther hfile w' =>
      obtain ⟨record, file, -, hsome, hhandle, -⟩ := hrequires
      exact absurd ⟨hsome, hhandle⟩ (hfile file)
  | receive received hpiece => exact hs.keepsFrame hi hkeeps rfl rfl rfl
  | other hop answer =>
      obtain ⟨hframe, hwritten⟩ := View.next_other (v := request.view) hop answer
      have hurl : ∀ url, op ≠ .cacheRecordGetOrCreate url := by
        rintro url rfl
        exact hop trivial
      exact hs.keepsFrame hi hkeeps hframe hwritten (Request.answered_source hurl k answer)

end

/-! ## Runs -/

theorem CacheInv.tick (hs : CacheInv s) (now : ℤ) :
    CacheInv { s with world := { s.world with clock := now } } :=
  ⟨⟨hs.counted.counts, hs.counted.exclusive, hs.counted.stray⟩, hs.names, hs.settled,
    fun i request hi ↦ (hs.requests i request hi).frame (.refl _) (fun _ _ _ _ _ ↦ rfl)
      fun _ _ ↦ rfl⟩

theorem CacheInv.arrive (hs : CacheInv s) (hkeeps : request.Keeps)
    (hgrant : request.view.grant = none) (hcached : request.view.cached = false) :
    CacheInv { s with requests := s.requests ++ [request] } := by
  refine ⟨?_, hs.names, hs.settled, fun i other hi ↦ ?_⟩
  · have hpc : request.pc.grant = none := by
      rw [Request.pc_of_none hgrant]
      rfl
    simpa [ProxyState.table] using hs.counted.enter hpc
  · rcases Nat.lt_or_ge i s.requests.length with hlt | hge
    · exact hs.requests i other (by rwa [List.getElem?_append_left hlt] at hi)
    · rw [List.getElem?_append_right hge] at hi
      obtain rfl := List.mem_singleton.mp (List.mem_of_getElem? hi)
      refine ⟨hkeeps, fun grant record h ↦ ?_, fun h ↦ ?_, fun record h ↦ ?_, fun record h ↦ ?_⟩
      · exact absurd (hgrant.symm.trans h) (by simp)
      · exact absurd (hcached.symm.trans h) (by simp)
      · exact absurd (hgrant.symm.trans h.1) (by simp)
      · exact absurd (hgrant.symm.trans h.1) (by simp)

theorem cacheInv_reachable (hs : ((proxySystem ttl md5sum).guarded Undisturbed).Reachable s) :
    CacheInv s := by
  refine System.reachable_induction (I := CacheInv) ?_ ?_ hs
  · rintro s ⟨hcontent, hrequests⟩
    refine ⟨⟨?_, ?_, ?_⟩, ?_, ?_, ?_⟩ <;>
      simp [ProxyState.table, hcontent, hrequests, grantsOf, openGrants, Grants.Exclusive,
        Grants.none]
  · rintro s a s' ih ⟨hguard, h⟩
    cases h with
    | tick hnow => exact ih.tick _
    | arrive fuel cacheFile job serverAddress path hostname pieces hresponse =>
        exact ih.arrive (fun source _ ↦ keeps_handleValidRequest_view hresponse hguard) rfl rfl
    | call hi hprog h => exact ih.call hi hprog h (hguard _ hi)

/-- A response of two bytes, a piece for the header and one for each byte. -/
def threePieces : List (List UInt8) :=
  [text "HTTP/1.1 200 OK\r\nCONTENT-LENGTH: 2\r\n\r\n", text "a", text "b"]

def shoutedResponse : LengthResponse :=
  { twoByteResponse with
    name := text "CONTENT-LENGTH:"
    length_line := ⟨by decide, by decide, by decide, by decide⟩
    name_eq := by decide }

theorem threePieces_complete : CompleteResponse threePieces :=
  ⟨by decide, shoutedResponse, by decide, by decide⟩

def firstRequest : Worker Status :=
  handleValidRequest 3 none (jobConstruct 3) ⟨10, 0, 0, 1, 80⟩ (text "/") (text "a")

def emptyWorld : World := ⟨[], fun _ ↦ [], 0, fun _ ↦ []⟩

/-! ## A client that goes away -/

/-- Taking all the steps, a request can come to an end that meets `Q`. -/
def MayEnd {α : Type} (ttl : ℤ) (md5sum : List UInt8 → List UInt8) (Q : World → View → α → Prop) :
    Worker α → World → View → Prop
  | .ret a, w, v => Q w v a
  | .halt _, _, _ => False
  | .call op k, w, v => ∃ answer w₁, WorldStep ttl md5sum v w op answer w₁ ∧
      MayEnd ttl md5sum Q (k answer) w₁ (v.next op answer)

section

variable {α β : Type} {Q : World → View → β → Prop} {p : Worker α} {f : α → Worker β} {v : View}

theorem mayEnd_bind (h : MayEnd ttl md5sum (fun w v a ↦ MayEnd ttl md5sum Q (f a) w v) p w v) :
    MayEnd ttl md5sum Q (p >>= f) w v := by
  induction p generalizing w v with
  | ret a => exact h
  | halt e => exact h
  | call op k ih =>
      obtain ⟨answer, w₁, hstep, h⟩ := h
      exact ⟨answer, w₁, hstep, ih answer h⟩

theorem MayEnd.call {Q : World → View → α → Prop} {op : Op} {k : Resp op → Worker α}
    {answer : Resp op} (h : WorldStep ttl md5sum v w op answer w')
    (hk : MayEnd ttl md5sum Q (k answer) w' (v.next op answer)) :
    MayEnd ttl md5sum Q (.call op k) w v :=
  ⟨answer, w', h, hk⟩

theorem cacheAndSend_some (socket : Socket) (handle : FileHandle) (bytes : List UInt8) :
    cacheAndSend socket (some handle) bytes bytes.length =
      .call (.fwrite handle bytes) fun _ ↦ trySendInChunks socket bytes bytes.length := by
  have hall : bytes.take (bytes.length : ℤ).toNat = bytes := by simp
  simp only [cacheAndSend, fwrite_bind]
  rw [if_neg (by omega), hall]

theorem trySendInChunks_cons {socket : Socket} (hfd : socket.fd ≠ -1) (c : UInt8)
    (rest : List UInt8) :
    trySendInChunks socket (c :: rest) (c :: rest).length =
      sendLoop socket (rest.length + 1) (c :: rest) := by
  have hall : (c :: rest).take ((c :: rest).length : ℤ).toNat = c :: rest := by simp
  have hfuel : ((c :: rest).length : ℤ).toNat = rest.length + 1 := by simp
  rw [trySendInChunks, if_neg hfd, hall, hfuel]

variable {socket : Socket} {bytes : List UInt8} {f : Status → Worker β}

theorem mayEnd_send (hfd : socket.fd ≠ -1) (hpos : 0 < bytes.length)
    (h : MayEnd ttl md5sum Q (f .success) w
      (v.next (.send socket bytes) (some ⟨bytes.length, hpos, Nat.le_refl _⟩))) :
    MayEnd ttl md5sum Q (trySendInChunks socket bytes bytes.length >>= f) w v := by
  obtain ⟨c, rest, rfl⟩ := List.exists_cons_of_length_pos hpos
  rw [trySendInChunks_cons hfd]
  simp only [sendLoop, peek_bind, send_bind, Prog.call_bind]
  have hpeek : ¬ReadsWorld (.peek socket) := id
  have hsend : ¬ReadsWorld (.send socket (c :: rest)) := id
  refine .call (.other hpeek (.data [c] (by simp))) ?_
  rw [if_neg (by simp [RecvResult.length])]
  refine .call (.other hsend (some ⟨(c :: rest).length, hpos, Nat.le_refl _⟩)) ?_
  simp only [List.drop_length, sendLoop]
  exact h

def View.at (v : View) (file : OpenedFile) (position : ℕ) : View :=
  { v with file := some { file with position := position } }

theorem View.at_next_fread (v : View) (file : OpenedFile) (position : ℕ)
    (bytes : { bytes : List UInt8 // bytes.length ≤ maxUrlSize }) :
    (v.at file position).next (.fread file.handle maxUrlSize) bytes =
      v.at file (position + bytes.val.length) := by
  simp [View.at, View.next, View.move]

/-- A short cache file without links is scanned to its end. -/
theorem mayEnd_scan {fuel : ℕ} {hostname : List UInt8} {file : OpenedFile} {f : Unit → Worker β}
    (hfile : v.file = some file) (hne : w.files file.path ≠ [])
    (hlen : (w.files file.path).length ≤ maxUrlSize) (hlink : 104 ∉ w.files file.path)
    (h : MayEnd ttl md5sum Q (f ()) w (v.at file (w.files file.path).length)) :
    MayEnd ttl md5sum Q (dispatchPrefetchJobs (fuel + 3) (some file.handle) hostname >>= f) w
      v := by
  have hown (position : ℕ) : (v.at file position).Owns file.handle
      { file with position := position } := ⟨rfl, rfl⟩
  simp only [dispatchPrefetchJobs, nonNullFile, Prog.ret_bind, fseek_bind, Prog.call_bind]
  refine .call (.other id ()) ?_
  have hseek : v.next (.fseek file.handle .start 0) () = v.at file 0 := by
    simp [View.at, View.next, View.move, hfile, OpenFile.seek]
  rw [hseek, dispatchLoop, findHref]
  simp only [indeterminate_bind, Prog.call_bind]
  let zeros : { bytes : List UInt8 // bytes.length = jobRequestBufferSize + 1 } :=
    ⟨List.replicate (jobRequestBufferSize + 1) 0, List.length_replicate ..⟩
  refine .call (.other id zeros) ?_
  change MayEnd ttl md5sum Q _ w (v.at file 0)
  have hscan : strchr (w.files file.path ++ zeros.val.drop (w.files file.path).length) 0 104 =
      none := by
    refine strchr_eq_none (by decide) fun hmem ↦ ?_
    have hbuffer := List.mem_of_mem_drop ((List.takeWhile_prefix _).mem hmem)
    rcases List.mem_append.mp hbuffer with hcontent | hzeros
    · exact hlink hcontent
    · have hzero := List.eq_of_mem_replicate (List.mem_of_mem_drop hzeros)
      simp at hzero
  rw [findHrefLoop]
  simp only [fread_bind, Prog.call_bind]
  refine .call (.read ⟨w.files file.path, hlen⟩ (hown 0) ?_) ?_
  · simpa [OpenFile.read] using (List.take_of_length_le hlen).symm
  rw [if_neg hne, View.at_next_fread, Nat.zero_add]
  simp only [hscan, scanHref, Prog.lift_ok, Prog.ret_bind]
  rw [findHrefLoop]
  simp only [fread_bind, Prog.call_bind]
  refine .call (.read ⟨[], Nat.zero_le _⟩ (hown _) ?_) ?_
  · simp [OpenFile.read]
  · rw [View.at_next_fread]
    exact h

theorem mayEnd_gone (hfd : socket.fd ≠ -1) (hpos : 0 < bytes.length)
    (h : MayEnd ttl md5sum Q (f .fail) w v) :
    MayEnd ttl md5sum Q (trySendInChunks socket bytes bytes.length >>= f) w v := by
  obtain ⟨c, rest, rfl⟩ := List.exists_cons_of_length_pos hpos
  rw [trySendInChunks_cons hfd]
  simp only [sendLoop, peek_bind, send_bind, Prog.call_bind]
  have hpeek : ¬ReadsWorld (.peek socket) := id
  refine .call (.other hpeek (.data [] (by simp))) ?_
  rw [if_pos (by simp [RecvResult.length])]
  exact h

end

theorem MayEnd.reachable {Q : World → View → Status → Prop} {p : Worker Status} {v : View}
    {requests : List Request} {source : List UInt8} {job : Job} {cacheFile : Option FileHandle}
    (h : MayEnd ttl md5sum Q p w v) (hs : (proxySystem ttl md5sum).Reachable ⟨w, requests⟩)
    (hi : requests[i]? = some ⟨p, v, source, job, cacheFile⟩) :
    ∃ w' v' status source', Q w' v' status ∧ (proxySystem ttl md5sum).Reachable
      ⟨w', requests.set i ⟨.ret status, v', source', job, cacheFile⟩⟩ := by
  induction p generalizing w v requests source with
  | ret status =>
      obtain ⟨hlt, hget⟩ := List.getElem?_eq_some_iff.mp hi
      refine ⟨w, v, status, source, h, ?_⟩
      rwa [← hget, List.set_getElem_self]
  | halt e => exact h.elim
  | call op k ih =>
      obtain ⟨answer, w₁, hstep, h⟩ := h
      have hnext := hs.step (.call hi rfl hstep)
      obtain ⟨w', v', status, source', hQ, hreach⟩ := ih answer h hnext (getElem?_set_here hi _)
      rw [List.set_set] at hreach
      exact ⟨w', v', status, source', hQ, hreach⟩

theorem abandoned_run :
    MayEnd 10 (fun _ ↦ text "k") (fun w _ _ ↦ w.content = [⟨text "k", 10, 0, 0⟩] ∧ w.clock = 0 ∧
      w.files (text "./cache/k") ≠ w.responses 0) firstRequest emptyWorld
      (View.start threePieces) := by
  unfold firstRequest handleValidRequest
  rw [if_neg (by decide)]
  simp only [cacheRecordGetOrCreate_bind]
  refine .call (.create (by decide) rfl (Int.le_refl 0)) ?_
  rw [serveGrant, if_neg (by decide)]
  simp only [fopen_bind]
  refine .call (.openWrite _ 5) ?_
  simp only [fetch, newSocket_bind, connect_bind]
  refine .call (.other id 4) (.call (.other id true) ?_)
  rw [if_neg (by decide)]
  apply mayEnd_send (by decide) (by decide)
  rw [if_neg (by decide)]
  -- The first piece goes to the file and to the client.
  simp only [relayResponse, recv_bind]
  refine .call (.receive (.data shoutedResponse.header (by decide)) ?_) ?_
  · rintro _ _ ⟨⟩
    exact ⟨by decide, by decide⟩
  simp only [RecvResult.bytes, RecvResult.length]
  have hparse : parseResponseHeader (responseBuffer shoutedResponse.header) = .ok (38, 2) :=
    parseResponseHeader_responseBuffer_iff.mpr ⟨by decide, by decide, by decide⟩
  rw [hparse]
  simp only [Prog.lift_ok, Prog.ret_bind, cacheAndSend_some, Prog.call_bind]
  refine .call (.write ⟨rfl, rfl⟩) (mayEnd_send (by decide) (by decide) ?_)
  rw [if_neg (by decide), relayRest, if_neg (by decide), if_pos (by decide)]
  -- The second piece goes to the file, but the client is gone.
  apply mayEnd_bind
  rw [relayLoop, if_pos (by decide)]
  simp only [recv_bind]
  refine .call (.receive (.data (text "a") (by decide)) ?_) ?_
  · rintro _ _ ⟨⟩
    exact ⟨by decide, by decide⟩
  rw [if_neg (by decide)]
  simp only [RecvResult.bytes, RecvResult.length, cacheAndSend_some, Prog.call_bind]
  refine .call (.write ⟨rfl, rfl⟩) (mayEnd_gone (by decide) (by decide) ?_)
  rw [if_pos rfl]
  -- The writer closes its grant all the same.
  simp only [close_bind]
  refine .call (.other id ()) ?_
  simp only [finishRelay, finishWrite, dispatchForClient]
  apply mayEnd_bind
  rw [if_pos (by decide)]
  let file : OpenedFile := ⟨5, text "./cache/k", 39⟩
  apply mayEnd_scan (show _ = some file from rfl) (by decide) (by decide) (by decide)
  simp only [nonNullFile, Prog.ret_bind, fclose_bind]
  refine .call (.other id ()) (.call (.close rfl) ?_)
  exact ⟨by decide, by decide, by decide⟩

end HttpProxy
