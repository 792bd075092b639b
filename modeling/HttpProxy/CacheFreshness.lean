import HttpProxy.CacheRecordRuns

/-!
# Freshness of cache hits

A run of the cache table with the log of what its calls were answered and when their
grants were closed.  The expiry time of a record is the time of the last write grant for
its key plus `CACHE_TTL`, whichever of the two places wrote it.
-/

namespace HttpProxy

open Transition

/-- A call decided on its answer for a key, at the time its last `time(NULL)` returned,
or took its grant off the record again. -/
inductive CacheEvent where
  | answered (call : ℕ) (key : List UInt8) (status : ActionStatus) (time : ℤ)
  | closed (call : ℕ)
  deriving DecidableEq, Repr

/-- What the step of call `i` from one line to another adds to the log, with the shared
data as the step leaves it. -/
def callEvents (i : ℕ) (sh : CacheShared) : CallPc → CallPc → List CacheEvent
  | .create key, .unlockTable _ status => [.answered i key status sh.clock]
  | .decide r, .unlockRecord _ status =>
      (sh.content[r]?.map fun record ↦ CacheEvent.answered i record.name status sh.clock).toList
  | .closeUpdate _ _, _ => [.closed i]
  | _, _ => []

def cacheEvents (s : CacheState) (label : CacheLabel) (s' : CacheState) : List CacheEvent :=
  match label with
  | .advance i =>
      match s.calls[i]?, s'.calls[i]? with
      | some pc, some pc' => callEvents i s'.shared pc pc'
      | _, _ => []
  | _ => []

/-- The runs of the table with the log of their answers. -/
def cacheHistory (ttl : ℤ) (md5sum : List UInt8 → List UInt8) :
    System (CacheState × List CacheEvent) CacheLabel :=
  (cacheSystem ttl md5sum).logged cacheEvents

/-- Call `j` was given the last write grant for the key, at time `t₀`, and `since` is
what the log has after that. -/
structure LastWrite (log : List CacheEvent) (key : List UInt8) (j : ℕ) (t₀ : ℤ)
    (since : List CacheEvent) : Prop where
  split : ∃ earlier, log = earlier ++ .answered j key .shouldWrite t₀ :: since
  last : ∀ j' t, .answered j' key .shouldWrite t ∉ since

/-- Every answer to read was given within `ttl` of the last write grant for its key, and
that grant had been closed. -/
def FreshHits (ttl : ℤ) (log : List CacheEvent) : Prop :=
  ∀ before after i key t, log = before ++ .answered i key .shouldRead t :: after →
    ∃ j t₀ since, LastWrite before key j t₀ since ∧ .closed j ∈ since ∧ t₀ ≤ t ∧ t < t₀ + ttl

/-! ## The log grows at its end -/

section Log

variable {log : List CacheEvent} {key : List UInt8} {j : ℕ} {t₀ : ℤ}
  {since : List CacheEvent}

theorem LastWrite.append (h : LastWrite log key j t₀ since) {events : List CacheEvent}
    (hnone : ∀ j' t, .answered j' key .shouldWrite t ∉ events) :
    LastWrite (log ++ events) key j t₀ (since ++ events) := by
  obtain ⟨⟨earlier, rfl⟩, hlast⟩ := h
  refine ⟨⟨earlier, by simp⟩, fun j' t hmem ↦ ?_⟩
  rcases List.mem_append.mp hmem with hold | hnew
  · exact hlast j' t hold
  · exact hnone j' t hnew

theorem LastWrite.here (log : List CacheEvent) (key : List UInt8) (j : ℕ) (t₀ : ℤ) :
    LastWrite (log ++ [.answered j key .shouldWrite t₀]) key j t₀ [] :=
  ⟨⟨log, rfl⟩, by simp⟩

theorem FreshHits.append {ttl : ℤ} (h : FreshHits ttl log) {event : CacheEvent}
    (hread : ∀ i key t, event = .answered i key .shouldRead t →
      ∃ j t₀ since, LastWrite log key j t₀ since ∧ .closed j ∈ since ∧ t₀ ≤ t ∧ t < t₀ + ttl) :
    FreshHits ttl (log ++ [event]) := by
  intro before after i key t hsplit
  rcases split_concat hsplit with ⟨after', hold⟩ | ⟨rfl, hnew⟩
  · exact h before after' i key t hold
  · exact hread i key t hnew.symm

end Log

/-! ## What one step adds -/

/-- All that a step of call `i` can do to the records, to its grant and to the log. -/
inductive LogChange (ttl : ℤ) (i : ℕ) (sh sh' : CacheShared) (pc pc' : CallPc) :
    List CacheEvent → Prop
  | quiet (hcontent : sh'.content = sh.content) (hgrant : pc'.grant = pc.grant) :
      LogChange ttl i sh sh' pc pc' []
  | create (key : List UInt8) (hpc : pc = .create key)
      (hcontent : sh'.content = sh.content ++ [cacheRecordCreate ttl key sh'.clock])
      (hgrant : pc'.grant = some (sh.content.length, .shouldWrite)) :
      LogChange ttl i sh sh' pc pc' [.answered i key .shouldWrite sh'.clock]
  | decide (r : ℕ) (record : CacheRecord) (now : ℤ) (hpc : pc.grant = none)
      (hrecord : sh.content[r]? = some record)
      (hcontent : sh'.content = sh.content.set r (cacheRecordDecide ttl record now sh'.clock).2)
      (hgrant : pc'.grant = some (r, (cacheRecordDecide ttl record now sh'.clock).1)) :
      LogChange ttl i sh sh' pc pc'
        [.answered i record.name (cacheRecordDecide ttl record now sh'.clock).1 sh'.clock]
  | close (r : ℕ) (record : CacheRecord) (status : ActionStatus)
      (hpc : pc.grant = some (r, status)) (hrecord : sh.content[r]? = some record)
      (hcontent : sh'.content = sh.content.set r (cacheRecordUpdate record status)) :
      LogChange ttl i sh sh' pc pc' [.closed i]

theorem callEvents_decide {i r : ℕ} {sh : CacheShared} {record : CacheRecord}
    (status : ActionStatus) (hrecord : sh.content[r]? = some record) :
    callEvents i sh (.decide r) (.unlockRecord r status) =
      [.answered i record.name status sh.clock] := by
  simp [callEvents, hrecord]

theorem CallStep.logChange {ttl : ℤ} {i : ℕ} {sh sh' : CacheShared} {pc pc' : CallPc}
    (h : CallStep ttl i sh pc sh' pc') :
    LogChange ttl i sh sh' pc pc' (callEvents i sh' pc pc') ∧ sh.clock ≤ sh'.clock := by
  cases h with
  | create hnow => exact ⟨.create _ rfl rfl rfl, hnow⟩
  | decide hrecord hnow hlater =>
      refine ⟨?_, Int.le_trans hnow hlater⟩
      rw [callEvents_decide _ (getElem?_set_here hrecord _), cacheRecordDecide_name]
      exact .decide _ _ _ rfl hrecord rfl rfl
  | closeUpdate hrecord => exact ⟨.close _ _ _ rfl hrecord rfl, Int.le_refl _⟩
  | _ => exact ⟨.quiet rfl rfl, Int.le_refl _⟩

/-! ## The last write grant of a record -/

/-- A call has this grant and has not taken it off the record yet. -/
def Held (calls : List CallPc) (j : ℕ) (grant : ℕ × ActionStatus) : Prop :=
  ∃ pc, calls[j]? = some pc ∧ pc.grant = some grant

/-- The record has a last write grant, which set its expiry time, and whose call still
holds the grant unless it has closed it. -/
def Written (ttl : ℤ) (log : List CacheEvent) (calls : List CallPc) (clock : ℤ) (r : ℕ)
    (record : CacheRecord) : Prop :=
  ∃ j t₀ since, LastWrite log record.name j t₀ since ∧ record.expirationTime = t₀ + ttl ∧
    t₀ ≤ clock ∧ (.closed j ∈ since ∨ Held calls j (r, .shouldWrite))

def WritesLogged (ttl : ℤ) (p : CacheState × List CacheEvent) : Prop :=
  ∀ r record, p.1.shared.content[r]? = some record →
    Written ttl p.2 p.1.calls p.1.shared.clock r record

section

variable {ttl : ℤ} {calls : List CallPc} {i j : ℕ} {pc pc' : CallPc}

theorem Held.set {grant : ℕ × ActionStatus} (h : Held calls j grant) (hpc : calls[i]? = some pc)
    (hkeep : pc.grant = some grant → pc'.grant = some grant) :
    Held (calls.set i pc') j grant := by
  obtain ⟨q, hq, hgrant⟩ := h
  by_cases hij : i = j
  · subst hij
    obtain rfl : pc = q := Option.some.inj (hpc.symm.trans hq)
    exact ⟨pc', getElem?_set_here hpc pc', hkeep hgrant⟩
  · exact ⟨q, by rwa [List.getElem?_set_ne hij], hgrant⟩

theorem Held.append {grant : ℕ × ActionStatus} (h : Held calls j grant) (new : CallPc) :
    Held (calls ++ [new]) j grant := by
  obtain ⟨q, hq, hgrant⟩ := h
  exact ⟨q, by rw [List.getElem?_append_left (List.getElem?_eq_some_iff.mp hq).1, hq], hgrant⟩

/-- What a step keeps of a record it does not grant for writing. -/
theorem Written.frame {log events : List CacheEvent} {calls' : List CallPc} {clock clock' : ℤ}
    {r : ℕ} {record record' : CacheRecord} (h : Written ttl log calls clock r record)
    (hname : record'.name = record.name)
    (hexpiry : record'.expirationTime = record.expirationTime) (hclock : clock ≤ clock')
    (hnone : ∀ j t, .answered j record.name .shouldWrite t ∉ events)
    (hheld : ∀ j, Held calls j (r, .shouldWrite) →
      .closed j ∈ events ∨ Held calls' j (r, .shouldWrite)) :
    Written ttl (log ++ events) calls' clock' r record' := by
  obtain ⟨j, t₀, since, hlast, htime, hle, hclosed⟩ := h
  refine ⟨j, t₀, since ++ events, hname ▸ hlast.append hnone, hexpiry.trans htime,
    Int.le_trans hle hclock, ?_⟩
  rcases hclosed with hclosed | hopen
  · exact .inl (List.mem_append_left _ hclosed)
  · exact (hheld j hopen).imp_left (List.mem_append_right _)

/-- A record that was just granted for writing. -/
theorem Written.here (log : List CacheEvent) {clock : ℤ} {r : ℕ} {record : CacheRecord}
    (hexpiry : record.expirationTime = clock + ttl) (hheld : Held calls i (r, .shouldWrite)) :
    Written ttl (log ++ [.answered i record.name .shouldWrite clock]) calls clock r record :=
  ⟨i, clock, [], .here log _ i clock, hexpiry, Int.le_refl _, .inr hheld⟩

end

variable {ttl : ℤ} {md5sum : List UInt8 → List UInt8}

/-- Names are unique, so a record has its name at one place only. -/
theorem KeysUnique.index_eq {s : CacheState} (hs : KeysUnique s) {r r' : ℕ}
    {record record' : CacheRecord} (hr : s.shared.content[r]? = some record)
    (hr' : s.shared.content[r']? = some record') (hname : record.name = record'.name) :
    r = r' := by
  have hlt : r < (s.shared.content.map CacheRecord.name).length := by
    simpa using (List.getElem?_eq_some_iff.mp hr).1
  have hget : (s.shared.content.map CacheRecord.name)[r]? =
      (s.shared.content.map CacheRecord.name)[r']? := by
    simp [hr, hr', hname]
  exact (List.getElem?_inj hlt hs.nodup).mp hget

/-- A record that nobody writes has no open write grant. -/
theorem GrantsCounted.not_held {s : CacheState} (hs : GrantsCounted s) {r : ℕ}
    {record : CacheRecord} (hrecord : s.shared.content[r]? = some record)
    (hidle : record.writeInProgress = 0) (j : ℕ) : ¬Held s.calls j (r, .shouldWrite) := by
  rintro ⟨pc, hpc, hgrant⟩
  have hcount := (hs.counts r record hrecord).2
  have hpos : 0 < openGrants s.calls r .shouldWrite :=
    ReadersWriter.countP_pos_of_get hpc (by simp [hgrant])
  simp only [grantsOf] at hcount
  omega

/-- One call's step keeps the log right: one case for each thing a step can do. -/
theorem WritesLogged.advance {s : CacheState} {log events : List CacheEvent} {i : ℕ}
    {pc pc' : CallPc} {sh' : CacheShared} (hs : WritesLogged ttl (s, log))
    (hkeys : KeysUnique s) (hpc : s.calls[i]? = some pc)
    (h : LogChange ttl i s.shared sh' pc pc' events) (hclock : s.shared.clock ≤ sh'.clock) :
    WritesLogged ttl (⟨sh', s.calls.set i pc'⟩, log ++ events) := by
  intro r record hrecord
  cases h with
  | quiet hcontent hgrant =>
      refine (hs r record (hcontent ▸ hrecord)).frame rfl rfl hclock (by simp) fun j hj ↦ ?_
      exact .inr (hj.set hpc fun hheld ↦ hgrant.trans hheld)
  | create key hcreate hcontent hgrant =>
      subst hcreate
      simp only [hcontent] at hrecord
      rcases Nat.lt_trichotomy r s.shared.content.length with hr | rfl | hr
      · rw [List.getElem?_append_left hr] at hrecord
        have hother : record.name ≠ key :=
          hkeys.fresh i key hpc record (List.mem_of_getElem? hrecord)
        refine (hs r record hrecord).frame rfl rfl hclock (by simp [hother]) fun j hj ↦ ?_
        exact .inr (hj.set hpc fun hheld ↦ by simp [CallPc.grant] at hheld)
      · obtain rfl : cacheRecordCreate ttl key sh'.clock = record := by simpa using hrecord
        have hexpiry : (cacheRecordCreate ttl key sh'.clock).expirationTime = sh'.clock + ttl := rfl
        exact Written.here log hexpiry ⟨pc', getElem?_set_here hpc pc', hgrant⟩
      · rw [List.getElem?_eq_none (by simp; omega)] at hrecord
        cases hrecord
  | decide r₀ record₀ now hnone hrecord₀ hcontent hgrant =>
      simp only [hcontent] at hrecord
      by_cases hr : r₀ = r
      · subst hr
        obtain rfl : (cacheRecordDecide ttl record₀ now sh'.clock).2 = record := by
          simpa [getElem?_set_here hrecord₀ _] using hrecord
        rcases cacheRecordDecide_expiry ttl record₀ now sh'.clock with
          ⟨hwrite, hexpiry⟩ | ⟨-, hother, hexpiry⟩
        · rw [hwrite] at hgrant ⊢
          rw [← cacheRecordDecide_name ttl record₀ now sh'.clock]
          exact .here log hexpiry ⟨pc', getElem?_set_here hpc pc', hgrant⟩
        · refine (hs r₀ record₀ hrecord₀).frame (by simp) hexpiry hclock
            (by simp [Ne.symm hother]) fun j hj ↦ ?_
          exact .inr (hj.set hpc fun hheld ↦ by simp [hnone] at hheld)
      · rw [List.getElem?_set_ne hr] at hrecord
        have hother : record.name ≠ record₀.name := by
          intro hname
          exact hr (hkeys.index_eq hrecord₀ hrecord hname.symm)
        refine (hs r record hrecord).frame rfl rfl hclock (by simp [hother]) fun j hj ↦ ?_
        exact .inr (hj.set hpc fun hheld ↦ by simp [hnone] at hheld)
  | close r₀ record₀ status hgranted hrecord₀ hcontent =>
      obtain ⟨record₁, hrecord₁, hname, hexpiry⟩ : ∃ record₁, s.shared.content[r]? = some record₁ ∧
          record.name = record₁.name ∧ record.expirationTime = record₁.expirationTime := by
        simp only [hcontent] at hrecord
        by_cases hr : r₀ = r
        · subst hr
          obtain rfl : cacheRecordUpdate record₀ status = record := by
            simpa [getElem?_set_here hrecord₀ _] using hrecord
          exact ⟨record₀, hrecord₀, by simp, by cases status <;> rfl⟩
        · exact ⟨record, by rwa [List.getElem?_set_ne hr] at hrecord, rfl, rfl⟩
      refine (hs r record₁ hrecord₁).frame hname hexpiry hclock (by simp) fun j hj ↦ ?_
      by_cases hij : i = j
      · exact .inl (by simp [hij])
      · obtain ⟨q, hq, hgrant⟩ := hj
        exact .inr ⟨q, by rwa [List.getElem?_set_ne hij], hgrant⟩

/-! ## Every hit is fresh -/

theorem FreshHits.advance {s : CacheState} {log events : List CacheEvent} {i : ℕ}
    {pc pc' : CallPc} {sh' : CacheShared} (hfresh : FreshHits ttl log)
    (hs : WritesLogged ttl (s, log)) (hcounted : GrantsCounted s)
    (h : LogChange ttl i s.shared sh' pc pc' events) (hclock : s.shared.clock ≤ sh'.clock) :
    FreshHits ttl (log ++ events) := by
  cases h with
  | quiet => simpa using hfresh
  | create => exact hfresh.append (by simp)
  | close => exact hfresh.append (by simp)
  | decide r record now hnone hrecord =>
      apply hfresh.append
      intro i' key t hevent
      simp only [CacheEvent.answered.injEq] at hevent
      obtain ⟨-, rfl, hread, rfl⟩ := hevent
      obtain ⟨j, t₀, since, hlast, hexpiry, hle, hclosed⟩ := hs r record hrecord
      rcases cacheRecordDecide_expiry ttl record now sh'.clock with ⟨hwrite, -⟩ | ⟨hhit, -, -⟩
      · simp [hwrite] at hread
      · obtain ⟨hbefore, hidle⟩ := hhit hread
        have hdone := hclosed.resolve_right (hcounted.not_held hrecord hidle j)
        exact ⟨j, t₀, since, hlast, hdone, Int.le_trans hle hclock, hexpiry ▸ hbefore⟩

theorem freshHits_reachable {p : CacheState × List CacheEvent}
    (hp : (cacheHistory ttl md5sum).Reachable p) : WritesLogged ttl p ∧ FreshHits ttl p.2 := by
  induction hp with
  | init h =>
      obtain ⟨⟨hcontent, -, -, -⟩, hlog⟩ := h
      exact ⟨by simp [WritesLogged, hcontent], by simp [FreshHits, hlog]⟩
  | @step p p' label hp h ih =>
      obtain ⟨s, log⟩ := p
      obtain ⟨s', log'⟩ := p'
      obtain ⟨h, hlog⟩ := h
      change log' = log ++ cacheEvents s label s' at hlog
      subst hlog
      obtain ⟨hwrites, hfresh⟩ := ih
      have hreach : (cacheSystem ttl md5sum).Reachable s := hp.of_logged
      cases h with
      | tick hnow =>
          refine ⟨fun r record hrecord ↦ ?_, by simpa [cacheEvents] using hfresh⟩
          exact (hwrites r record hrecord).frame rfl rfl hnow (by simp [cacheEvents])
            fun j hj ↦ .inr hj
      | call url =>
          refine ⟨fun r record hrecord ↦ ?_, by simpa [cacheEvents] using hfresh⟩
          exact (hwrites r record hrecord).frame rfl rfl (Int.le_refl _) (by simp [cacheEvents])
            fun j hj ↦ .inr (hj.append _)
      | @advance i pc pc' sh' hpc h =>
          have hevents : cacheEvents s (.advance i) ⟨sh', s.calls.set i pc'⟩ =
              callEvents i sh' pc pc' := by
            simp [cacheEvents, hpc, getElem?_set_here hpc pc']
          obtain ⟨hchange, hclock⟩ := h.logChange
          simp only [hevents]
          exact ⟨hwrites.advance (keysUnique_reachable hreach) hpc hchange hclock,
            hfresh.advance hwrites (grantsCounted_reachable hreach) hchange hclock⟩

/-- Whoever is let in to read is let in within `CACHE_TTL` of the last write grant for its
key, which was closed before. -/
theorem cacheHits_fresh {p : CacheState × List CacheEvent}
    (hp : (cacheHistory ttl md5sum).Reachable p) : FreshHits ttl p.2 :=
  (freshHits_reachable hp).2

/-- A url looked up, written, closed and found again nine seconds later. -/
theorem cacheHits_fresh_secondLookup :
    ∃ p : CacheState × List CacheEvent, p.2 = [.answered 0 (text "u") .shouldWrite 0, .closed 0,
        .answered 1 (text "u") .shouldRead 9] ∧ FreshHits 10 p.2 := by
  have hinit : (cacheHistory 10 id).Reachable (⟨⟨[], none, fun _ ↦ none, 0⟩, []⟩, []) :=
    .init ⟨⟨rfl, rfl, fun _ ↦ rfl, rfl⟩, rfl⟩
  have hcall := hinit.log (.call (text "u"))
  have hlock := hcall.log (.advance (i := 0) rfl (.lockTable rfl))
  have hmiss := hlock.log (.advance (i := 0) rfl (.miss rfl))
  have hcreate := hmiss.log (.advance (i := 0) rfl (.create (Int.le_refl 0)))
  have hunlock := hcreate.log (.advance (i := 0) rfl .unlockTable)
  have hclose := hunlock.log (.advance (i := 0) rfl .close)
  have hcloseLock := hclose.log (.advance (i := 0) rfl (.closeLock rfl))
  have hupdate := hcloseLock.log (.advance (i := 0) rfl (.closeUpdate rfl))
  have hclosed := hupdate.log (.advance (i := 0) rfl .closeUnlock)
  have hagain := hclosed.log (.call (text "u"))
  have hlock' := hagain.log (.advance (i := 1) rfl (.lockTable rfl))
  have hhit := hlock'.log (.advance (i := 1) rfl (.hit rfl))
  have hrecord := hhit.log (.advance (i := 1) rfl (.lockRecord rfl))
  have hread := hrecord.log (.advance (i := 1) rfl
    (.decide rfl (by decide : (0 : ℤ) ≤ 9) (Int.le_refl 9)))
  exact ⟨_, rfl, cacheHits_fresh hread⟩

end HttpProxy
