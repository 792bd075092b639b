import HttpProxy.CacheFreshness
import HttpProxy.CacheLookups

/-!
# A record nobody uses

Whether a lookup can be turned away from a record on which no grant is open.  The decision
compares the expiry time with two readings of the clock, so the runs are taken with these
readings in their labels, and the clock may be set to any time between them.
-/

namespace HttpProxy

open Transition

variable {ttl : ℤ} {md5sum : List UInt8 → List UInt8} {record : CacheRecord} {s s' : CacheState}
  {log : List CacheEvent} {i j r : ℕ}

/-! ## The decision -/

/-- A decision turns its caller away if somebody writes, or if the record is not fresh any more
and either somebody reads or it has not expired yet. -/
theorem cacheRecordDecide_unavailable_iff (ttl : ℤ) (record : CacheRecord) (now later : ℤ) :
    (cacheRecordDecide ttl record now later).1 = .unavailable ↔
      record.writeInProgress ≠ 0 ∨
        record.expirationTime ≤ later ∧ (record.readers ≠ 0 ∨ now ≤ record.expirationTime) := by
  unfold cacheRecordDecide
  split
  next hwrite => simp [hwrite.2.1, hwrite.2.2, hwrite.1]
  next hwrite =>
    split
    next hread =>
      simp only [hread.2, reduceCtorEq, ne_eq, not_true_eq_false, false_or, false_iff, not_and]
      omega
    next hread => simp only [true_iff]; omega

/-- The record is on the second of its expiry: it has not expired at the first reading of the
clock, and is not fresh any more at the second. -/
def OnExpiry (record : CacheRecord) (now later : ℤ) : Prop :=
  now ≤ record.expirationTime ∧ record.expirationTime ≤ later

theorem decide_idle_unavailable_iff (hreaders : record.readers = 0)
    (hwriter : record.writeInProgress = 0) (ttl now later : ℤ) :
    (cacheRecordDecide ttl record now later).1 = .unavailable ↔ OnExpiry record now later := by
  rw [cacheRecordDecide_unavailable_iff, OnExpiry]
  simp only [hreaders, hwriter, ne_eq, not_true_eq_false, false_or]
  exact and_comm

/-! ## Runs with any clock -/

/-- What `time(NULL)` returns the two times a decision calls it. -/
structure Readings where
  now : ℤ
  later : ℤ

/-- The steps of the table with the readings each decision makes.  The readings are any times,
and the clock may be set forward and back. -/
inductive ClockedStep (ttl : ℤ) (md5sum : List UInt8 → List UInt8) :
    CacheState → CacheLabel × Readings → CacheState → Prop
  | decide {s : CacheState} {i r : ℕ} {record : CacheRecord} (readings : Readings)
      (hpc : s.calls[i]? = some (.decide r)) (hrecord : s.shared.content[r]? = some record) :
      ClockedStep ttl md5sum s (.advance i, readings)
        ⟨{ s.shared with
            content := s.shared.content.set r
              (cacheRecordDecide ttl record readings.now readings.later).2
            clock := readings.later },
          s.calls.set i
            (.unlockRecord r (cacheRecordDecide ttl record readings.now readings.later).1)⟩
  | setClock {s : CacheState} (time : ℤ) (readings : Readings) :
      ClockedStep ttl md5sum s (.tick time, readings)
        { s with shared := { s.shared with clock := time } }
  | other {s s' : CacheState} {label : CacheLabel} (readings : Readings)
      (h : CacheStep ttl md5sum s label s')
      (hother : ∀ i r, label = .advance i → s.calls[i]? ≠ some (.decide r)) :
      ClockedStep ttl md5sum s (label, readings) s'

def clockedSystem (ttl : ℤ) (md5sum : List UInt8 → List UInt8) :
    System CacheState (CacheLabel × Readings) where
  Init := (cacheSystem ttl md5sum).Init
  Step := ClockedStep ttl md5sum

/-- Every step of the table is one with some readings. -/
theorem CacheStep.clocked {label : CacheLabel} (h : CacheStep ttl md5sum s label s') :
    ∃ readings, ClockedStep ttl md5sum s (label, readings) s' := by
  cases h with
  | tick hnow => exact ⟨⟨0, 0⟩, .setClock _ _⟩
  | call url => exact ⟨⟨0, 0⟩, .other _ (.call url) (by simp)⟩
  | @advance i pc pc' sh' hpc h =>
      by_cases hdecide : ∃ r, pc = .decide r
      · obtain ⟨r, rfl⟩ := hdecide
        cases h with
        | @decide _ _ now later hrecord => exact ⟨⟨now, later⟩, .decide ⟨now, later⟩ hpc hrecord⟩
      · refine ⟨⟨0, 0⟩, .other _ (.advance hpc h) fun i' r hi hr ↦ hdecide ⟨r, ?_⟩⟩
        obtain rfl := CacheLabel.advance.inj hi
        exact Option.some.inj (hpc.symm.trans hr)

theorem clocked_reachable (hs : (cacheSystem ttl md5sum).Reachable s) :
    (clockedSystem ttl md5sum).Reachable s := by
  induction hs with
  | init h => exact .init h
  | step _ h ih =>
      obtain ⟨readings, hstep⟩ := CacheStep.clocked h
      exact ih.step hstep

/-! ## What one step does -/

/-- The call has taken its grant off the record. -/
def CallPc.Done : CallPc → Prop
  | .closeUnlock _ => True
  | .closed => True
  | _ => False

theorem CallPc.Done.grant {pc : CallPc} (h : pc.Done) : pc.grant = none := by
  cases pc <;> first | rfl | cases h

/-- A step of a call changes its record and the log as the step lists, and a call that has
closed its grant stays closed. -/
structure CallChange (ttl : ℤ) (s s' : CacheState) (events : List CacheEvent) (i : ℕ)
    (pc pc' : CallPc) : Prop where
  here : s.calls[i]? = some pc
  calls : s'.calls = s.calls.set i pc'
  grant : GrantChange ttl s.shared.content s'.shared.content pc pc'
  log : LogChange ttl i s.shared s'.shared pc pc' events
  done : pc.Done → pc'.Done
  closed : .closed i ∈ events → pc'.Done

/-- All that a step can do to the table, to the calls and to the log. -/
inductive ClockedChange (ttl : ℤ) (md5sum : List UInt8 → List UInt8) (s s' : CacheState) :
    List CacheEvent → Prop
  | clock (hcontent : s'.shared.content = s.shared.content) (hcalls : s'.calls = s.calls) :
      ClockedChange ttl md5sum s s' []
  | enter (url : List UInt8) (hcontent : s'.shared.content = s.shared.content)
      (hcalls : s'.calls = s.calls ++ [enterCall md5sum url]) : ClockedChange ttl md5sum s s' []
  | call (i : ℕ) (pc pc' : CallPc) {events : List CacheEvent}
      (h : CallChange ttl s s' events i pc pc') : ClockedChange ttl md5sum s s' events

theorem CallStep.done {sh sh' : CacheShared} {pc pc' : CallPc}
    (h : CallStep ttl i sh pc sh' pc') :
    (pc.Done → pc'.Done) ∧ (.closed i ∈ callEvents i sh' pc pc' → pc'.Done) := by
  cases h with
  | closeUpdate | closeUnlock => exact ⟨fun _ ↦ trivial, fun _ ↦ trivial⟩
  | decide hrecord =>
      refine ⟨id, fun hmem ↦ ?_⟩
      rw [callEvents_decide _ (getElem?_set_here hrecord _)] at hmem
      simp at hmem
  | _ => exact ⟨id, by simp [callEvents]⟩

theorem cacheEvents_advance {sh' : CacheShared} {pc pc' : CallPc}
    (hpc : s.calls[i]? = some pc) :
    cacheEvents s (.advance i) ⟨sh', s.calls.set i pc'⟩ = callEvents i sh' pc pc' := by
  simp [cacheEvents, hpc, getElem?_set_here hpc pc']

theorem ClockedStep.change {label : CacheLabel × Readings}
    (h : ClockedStep ttl md5sum s label s') :
    ClockedChange ttl md5sum s s' (cacheEvents s label.1 s') := by
  cases h with
  | setClock => exact .clock rfl rfl
  | other readings h =>
      cases h with
      | tick => exact .clock rfl rfl
      | call url => exact .enter url rfl rfl
      | advance hpc h =>
          rw [cacheEvents_advance hpc]
          exact .call _ _ _ ⟨hpc, rfl, h.grantChange, h.logChange.1, h.done.1, h.done.2⟩
  | decide readings hpc hrecord =>
      rw [cacheEvents_advance hpc, callEvents_decide _ (getElem?_set_here hrecord _),
        cacheRecordDecide_name]
      refine .call _ _ _ ⟨hpc, rfl, ?_, ?_, id, by simp⟩
      · exact .open _ _ _ _ rfl hrecord rfl rfl
      · exact .decide _ _ _ rfl hrecord rfl rfl

/-! ## The counters and the log -/

/-- An open grant has been answered for the name of its record, and only calls that have given
their grant back are logged as closed. -/
structure GrantsLogged (s : CacheState) (log : List CacheEvent) : Prop where
  answered : ∀ j r status, Held s.calls j (r, status) →
    ∃ key t, s.shared.names[r]? = some key ∧ .answered j key status t ∈ log
  closed : ∀ j, .closed j ∈ log → ∃ pc, s.calls[j]? = some pc ∧ pc.Done

theorem GrantsLogged.not_closed (h : GrantsLogged s log) {grant : ℕ × ActionStatus}
    (hheld : Held s.calls j grant) : .closed j ∉ log := by
  intro hclosed
  obtain ⟨pc, hpc, hgrant⟩ := hheld
  obtain ⟨pc', hpc', hdone⟩ := h.closed j hclosed
  obtain rfl : pc = pc' := Option.some.inj (hpc.symm.trans hpc')
  rw [hdone.grant] at hgrant
  cases hgrant

theorem LogChange.names {sh sh' : CacheShared} {pc pc' : CallPc} {events : List CacheEvent}
    (h : LogChange ttl i sh sh' pc pc' events) : sh.names <+: sh'.names := by
  have hsame (hnames : sh'.names = sh.names) : sh.names <+: sh'.names :=
    ⟨[], (List.append_nil _).trans hnames.symm⟩
  unfold CacheShared.names at hsame ⊢
  cases h with
  | quiet hcontent => exact hsame (congrArg _ hcontent)
  | create key hpc hcontent =>
      rw [hcontent, List.map_append]
      exact List.prefix_append _ _
  | decide r record now hpc hrecord hcontent =>
      apply hsame
      rw [hcontent, map_name_set hrecord (cacheRecordDecide_name ..)]
  | close r record status hpc hrecord hcontent =>
      apply hsame
      rw [hcontent, map_name_set hrecord (cacheRecordUpdate_name ..)]

theorem LogChange.closed_eq {sh sh' : CacheShared} {pc pc' : CallPc} {events : List CacheEvent}
    (h : LogChange ttl i sh sh' pc pc' events) (hclosed : .closed j ∈ events) : j = i := by
  cases h with
  | quiet | create | decide => simp at hclosed
  | close => simpa using hclosed

/-- The grant a step has given stands in the log with the name of its record. -/
theorem CallChange.answered {events : List CacheEvent} {pc pc' : CallPc} {status : ActionStatus}
    (h : CallChange ttl s s' events i pc pc') (hgrant : pc'.grant = some (r, status)) :
    pc.grant = some (r, status) ∨
      ∃ key t, s'.shared.names[r]? = some key ∧ .answered i key status t ∈ events := by
  obtain ⟨-, -, -, hlog, -, hclosed⟩ := h
  cases hlog with
  | quiet hcontent hsame => exact .inl (hsame ▸ hgrant)
  | create key hpc hcontent hnew =>
      obtain ⟨rfl, rfl⟩ : s.shared.content.length = r ∧ .shouldWrite = status := by
        simpa [hnew] using hgrant
      refine .inr ⟨key, _, ?_, List.mem_singleton.mpr rfl⟩
      simp [CacheShared.names, hcontent, cacheRecordCreate]
  | decide r₀ record now hpc hrecord hcontent hnew =>
      rw [hnew] at hgrant
      obtain ⟨rfl, rfl⟩ := Prod.mk.inj (Option.some.inj hgrant)
      refine .inr ⟨record.name, _, ?_, List.mem_singleton.mpr rfl⟩
      rw [CacheShared.names, hcontent, map_name_set hrecord (cacheRecordDecide_name ..),
        List.getElem?_map, hrecord]
      rfl
  | close =>
      have hdone := hclosed (List.mem_singleton.mpr rfl)
      rw [hdone.grant] at hgrant
      cases hgrant

theorem Held.of_set {calls : List CallPc} {pc pc' : CallPc} {grant : ℕ × ActionStatus}
    (h : Held (calls.set i pc') j grant) (hpc : calls[i]? = some pc) :
    j = i ∧ pc'.grant = some grant ∨ Held calls j grant := by
  obtain ⟨q, hq, hgrant⟩ := h
  by_cases hij : i = j
  · subst hij
    rw [getElem?_set_here hpc] at hq
    cases hq
    exact .inl ⟨rfl, hgrant⟩
  · rw [List.getElem?_set_ne hij] at hq
    exact .inr ⟨q, hq, hgrant⟩

theorem Held.of_append {calls : List CallPc} {pc : CallPc} {grant : ℕ × ActionStatus}
    (h : Held (calls ++ [pc]) j grant) (hpc : pc.grant = none) : Held calls j grant := by
  obtain ⟨q, hq, hgrant⟩ := h
  rcases getElem?_append_new hq with hold | rfl
  · exact ⟨q, hold, hgrant⟩
  · rw [hpc] at hgrant
    cases hgrant

theorem GrantsLogged.change {events : List CacheEvent} (hs : GrantsLogged s log)
    (h : ClockedChange ttl md5sum s s' events) : GrantsLogged s' (log ++ events) := by
  cases h with
  | clock hcontent hcalls =>
      rw [List.append_nil]
      refine ⟨?_, by rw [hcalls]; exact hs.closed⟩
      rw [hcalls, CacheShared.names, hcontent]
      exact hs.answered
  | enter url hcontent hcalls =>
      rw [List.append_nil]
      refine ⟨fun j r status hj ↦ ?_, fun j hj ↦ ?_⟩
      · rw [hcalls] at hj
        rw [CacheShared.names, hcontent]
        exact hs.answered j r status (hj.of_append (enterCall_grant url))
      · obtain ⟨pc, hpc, hdone⟩ := hs.closed j hj
        refine ⟨pc, ?_, hdone⟩
        rw [hcalls, List.getElem?_append_left (List.getElem?_eq_some_iff.mp hpc).1, hpc]
  | call i pc pc' h =>
      refine ⟨fun j r status hj ↦ ?_, fun j hj ↦ ?_⟩
      · have hold : Held s.calls j (r, status) →
            ∃ key t, s'.shared.names[r]? = some key ∧
              .answered j key status t ∈ log ++ events := by
          intro hheld
          obtain ⟨key, t, hkey, hmem⟩ := hs.answered j r status hheld
          obtain ⟨added, hnames⟩ := h.log.names
          refine ⟨key, t, ?_, List.mem_append_left _ hmem⟩
          rw [← hnames, List.getElem?_append_left (List.getElem?_eq_some_iff.mp hkey).1, hkey]
        rw [h.calls] at hj
        rcases hj.of_set h.here with ⟨rfl, hgrant⟩ | hheld
        · rcases h.answered hgrant with hsame | ⟨key, t, hkey, hmem⟩
          · exact hold ⟨pc, h.here, hsame⟩
          · exact ⟨key, t, hkey, List.mem_append_right _ hmem⟩
        · exact hold hheld
      · rcases List.mem_append.mp hj with hold | hnew
        · obtain ⟨q, hq, hdone⟩ := hs.closed j hold
          by_cases hij : i = j
          · subst hij
            obtain rfl : pc = q := Option.some.inj (h.here.symm.trans hq)
            exact ⟨pc', by rw [h.calls, getElem?_set_here h.here], h.done hdone⟩
          · exact ⟨q, by rw [h.calls, List.getElem?_set_ne hij, hq], hdone⟩
        · obtain rfl := h.log.closed_eq hnew
          exact ⟨pc', by rw [h.calls, getElem?_set_here h.here], h.closed hnew⟩

theorem GrantsCounted.congr (hs : GrantsCounted s)
    (hcontent : s'.shared.content = s.shared.content) (hcalls : s'.calls = s.calls) :
    GrantsCounted s' := by
  refine ⟨?_, ?_, ?_⟩
  · rw [hcontent, hcalls]
    exact hs.counts
  · rw [hcalls]
    exact hs.exclusive
  · rw [hcontent, hcalls]
    exact hs.stray

theorem GrantsCounted.change {events : List CacheEvent} (hs : GrantsCounted s)
    (h : ClockedChange ttl md5sum s s' events) : GrantsCounted s' := by
  cases h with
  | clock hcontent hcalls => exact hs.congr hcontent hcalls
  | enter url hcontent hcalls => exact (hs.enter (enterCall_grant url)).congr hcontent hcalls
  | call i pc pc' h => exact (hs.advance h.here h.grant).congr rfl h.calls

/-! ## Every run -/

/-- No step decides on a record without open grants on the second of its expiry. -/
def AwayFromExpiry (s : CacheState) (label : CacheLabel × Readings) : Prop :=
  ∀ i r record, label.1 = .advance i → s.calls[i]? = some (.decide r) →
    s.shared.content[r]? = some record → record.readers = 0 → record.writeInProgress = 0 →
      ¬OnExpiry record label.2.now label.2.later

/-- The runs with any clock whose steps meet the guard, with the log of their answers. -/
def clockedHistory (ttl : ℤ) (md5sum : List UInt8 → List UInt8)
    (guard : CacheState → CacheLabel × Readings → Prop) :
    System (CacheState × List CacheEvent) (CacheLabel × Readings) :=
  ((clockedSystem ttl md5sum).guarded guard).logged fun s label s' ↦ cacheEvents s label.1 s'

/-- A call is turned away only while another one has been let in for the same key and has not
closed its grant. -/
def UnavailableInUse (log : List CacheEvent) : Prop :=
  ∀ before after i key t, log = before ++ .answered i key .unavailable t :: after →
    ∃ j status t', .answered j key status t' ∈ before ∧ status ≠ .unavailable ∧
      .closed j ∉ before

theorem UnavailableInUse.append (h : UnavailableInUse log) {event : CacheEvent}
    (hnew : ∀ i key t, event = .answered i key .unavailable t →
      ∃ j status t', .answered j key status t' ∈ log ∧ status ≠ .unavailable ∧
        .closed j ∉ log) : UnavailableInUse (log ++ [event]) := by
  intro before after i key t hsplit
  rcases split_concat hsplit with ⟨after', hold⟩ | ⟨rfl, hevent⟩
  · exact h before after' i key t hold
  · exact hnew i key t hevent.symm

/-- A record whose counters are not zero has a grant in the log that is still open. -/
theorem GrantsLogged.exists_open (hs : GrantsLogged s log) (hcounted : GrantsCounted s)
    (hrecord : s.shared.content[r]? = some record)
    (hused : record.readers ≠ 0 ∨ record.writeInProgress ≠ 0) :
    ∃ j status t, .answered j record.name status t ∈ log ∧ status ≠ .unavailable ∧
      .closed j ∉ log := by
  have hname : s.shared.names[r]? = some record.name := by
    rw [CacheShared.names, List.getElem?_map, hrecord]
    rfl
  have hfind : ∀ status, status ≠ .unavailable → 0 < openGrants s.calls r status →
      ∃ j status t, .answered j record.name status t ∈ log ∧ status ≠ .unavailable ∧
        .closed j ∉ log := by
    intro status hstatus hpos
    obtain ⟨pc, hpc, hgrant⟩ := List.countP_pos_iff.mp hpos
    obtain ⟨j, hj⟩ := List.mem_iff_getElem?.mp hpc
    have hheld : Held s.calls j (r, status) := ⟨pc, hj, by simpa using hgrant⟩
    obtain ⟨key, t, hkey, hmem⟩ := hs.answered j r status hheld
    obtain rfl : key = record.name := Option.some.inj (hkey.symm.trans hname)
    exact ⟨j, status, t, hmem, hstatus, hs.not_closed hheld⟩
  obtain ⟨hreaders, hwriters⟩ := hcounted.counts r record hrecord
  simp only [grantsOf] at hreaders hwriters
  rcases hused with hread | hwrite
  · exact hfind .shouldRead (by decide) (by omega)
  · exact hfind .shouldWrite (by decide) (by omega)

/-- One step keeps the law if it is away from expiry. -/
theorem UnavailableInUse.step {label : CacheLabel × Readings} (h : UnavailableInUse log)
    (hs : GrantsLogged s log) (hcounted : GrantsCounted s)
    (hstep : ClockedStep ttl md5sum s label s') (haway : AwayFromExpiry s label) :
    UnavailableInUse (log ++ cacheEvents s label.1 s') := by
  cases hstep with
  | setClock => simpa [cacheEvents] using h
  | decide readings hpc hrecord =>
      rw [cacheEvents_advance hpc, callEvents_decide _ (getElem?_set_here hrecord _),
        cacheRecordDecide_name]
      apply h.append
      intro i' key t hevent
      obtain ⟨-, rfl, hstatus, -⟩ := CacheEvent.answered.inj hevent
      apply hs.exists_open hcounted hrecord
      by_contra hidle
      push Not at hidle
      have hexpiry := (decide_idle_unavailable_iff hidle.1 hidle.2 _ _ _).mp hstatus
      exact haway _ _ _ rfl hpc hrecord hidle.1 hidle.2 hexpiry
  | other readings hstep hother =>
      cases hstep with
      | tick | call => simpa [cacheEvents] using h
      | advance hpc hstep =>
          rw [cacheEvents_advance hpc]
          cases hstep with
          | decide => exact absurd hpc (hother _ _ rfl)
          | create => exact h.append (by simp)
          | closeUpdate => exact h.append (by simp)
          | _ => simpa [callEvents] using h

theorem clockedHistory_reachable {guard : CacheState → CacheLabel × Readings → Prop}
    {p : CacheState × List CacheEvent} (hp : (clockedHistory ttl md5sum guard).Reachable p) :
    GrantsLogged p.1 p.2 ∧ GrantsCounted p.1 := by
  induction hp with
  | @init p h =>
      obtain ⟨⟨hcontent, -, -, hcalls⟩, hlog⟩ := h
      refine ⟨⟨?_, by simp [hlog]⟩, ?_⟩
      · rintro j r status ⟨pc, hpc, -⟩
        simp [hcalls] at hpc
      · refine ⟨?_, ?_, ?_⟩ <;>
          simp [hcontent, hcalls, grantsOf, openGrants, ReadersWriter.Grants.Exclusive,
            ReadersWriter.Grants.none]
  | @step p p' label hp h ih =>
      obtain ⟨⟨-, hstep⟩, hlog⟩ := h
      rw [hlog]
      exact ⟨ih.1.change hstep.change, ih.2.change hstep.change⟩

/-- While no decision on an idle record falls on the second of its expiry, a call is turned
away only from a record that somebody uses. -/
theorem unavailable_inUse {p : CacheState × List CacheEvent}
    (hp : (clockedHistory ttl md5sum AwayFromExpiry).Reachable p) : UnavailableInUse p.2 := by
  induction hp with
  | @init p h =>
      rw [h.2]
      intro before after i key t hsplit
      simp at hsplit
  | @step p p' label hp h ih =>
      obtain ⟨hlogged, hcounted⟩ := clockedHistory_reachable hp
      obtain ⟨⟨haway, hstep⟩, hlog⟩ := h
      rw [hlog]
      exact ih.step hlogged hcounted hstep haway

theorem awayFromExpiry_of_pc {pc : CallPc} (readings : Readings) (hpc : s.calls[i]? = some pc)
    (hother : ∀ r, pc ≠ .decide r) : AwayFromExpiry s (.advance i, readings) := by
  intro i' r record hi hr
  obtain rfl := CacheLabel.advance.inj hi
  exact absurd (Option.some.inj (hpc.symm.trans hr)) (hother r)

theorem awayFromExpiry_of_writer (readings : Readings) (hpc : s.calls[i]? = some (.decide r))
    (hrecord : s.shared.content[r]? = some record) (hwriter : record.writeInProgress ≠ 0) :
    AwayFromExpiry s (.advance i, readings) := by
  intro i' r' record' hi hr hrecord' hreaders hidle
  obtain rfl := CacheLabel.advance.inj hi
  obtain rfl := CallPc.decide.inj (Option.some.inj (hpc.symm.trans hr))
  obtain rfl := Option.some.inj (hrecord.symm.trans hrecord')
  exact absurd hidle hwriter

section Runs

variable {guard : CacheState → CacheLabel × Readings → Prop}

/-- A step that decides nothing, from one reachable state to the next. -/
theorem clockedHistory_advance {pc pc' : CallPc} {sh' : CacheShared}
    (hs : (clockedHistory ttl md5sum guard).Reachable (s, log)) (hpc : s.calls[i]? = some pc)
    (hother : ∀ r, pc ≠ .decide r) (hguard : guard s (.advance i, ⟨0, 0⟩))
    (h : CallStep ttl i s.shared pc sh' pc') :
    (clockedHistory ttl md5sum guard).Reachable
      (⟨sh', s.calls.set i pc'⟩, log ++ callEvents i sh' pc pc') := by
  have hstep : ClockedStep ttl md5sum s (.advance i, ⟨0, 0⟩) ⟨sh', s.calls.set i pc'⟩ := by
    refine .other _ (.advance hpc h) fun i' r hi hr ↦ hother r ?_
    obtain rfl := CacheLabel.advance.inj hi
    exact Option.some.inj (hpc.symm.trans hr)
  rw [← cacheEvents_advance hpc]
  exact hs.log ⟨hguard, hstep⟩

theorem clockedHistory_call (hs : (clockedHistory ttl md5sum guard).Reachable (s, log))
    (url : List UInt8) (hguard : guard s (.call url, ⟨0, 0⟩)) :
    (clockedHistory ttl md5sum guard).Reachable
      ({ s with calls := s.calls ++ [enterCall md5sum url] }, log ++ []) :=
  hs.log ⟨hguard, .other _ (.call url) (by simp)⟩

theorem clockedHistory_empty :
    (clockedHistory ttl md5sum guard).Reachable (⟨⟨[], none, fun _ ↦ none, 0⟩, []⟩, []) :=
  .init ⟨⟨rfl, rfl, fun _ ↦ rfl, rfl⟩, rfl⟩

end Runs

/-- A record that expires at time 10 and whose only grant is closed turns away the call that
comes at time 10. -/
theorem expiredSecond_unavailable :
    ¬∀ (ttl : ℤ) (md5sum : List UInt8 → List UInt8) (p : CacheState × List CacheEvent),
      (clockedHistory ttl md5sum fun _ _ ↦ True).Reachable p → UnavailableInUse p.2 := by
  intro hall
  have hstart : (clockedHistory 10 id fun _ _ ↦ True).Reachable
      (⟨⟨[], none, fun _ ↦ none, 0⟩, []⟩, []) := clockedHistory_empty
  have hcall := clockedHistory_call hstart (text "u") trivial
  have hlock := clockedHistory_advance (i := 0) hcall rfl (by rintro _ ⟨⟩) trivial (.lockTable rfl)
  have hmiss := clockedHistory_advance (i := 0) hlock rfl (by rintro _ ⟨⟩) trivial (.miss rfl)
  have hcreate := clockedHistory_advance (i := 0) hmiss rfl (by rintro _ ⟨⟩) trivial
    (.create (Int.le_refl 0))
  have hunlock := clockedHistory_advance (i := 0) hcreate rfl (by rintro _ ⟨⟩) trivial .unlockTable
  have hclose := clockedHistory_advance (i := 0) hunlock rfl (by rintro _ ⟨⟩) trivial .close
  have hcloseLock := clockedHistory_advance (i := 0) hclose rfl (by rintro _ ⟨⟩) trivial
    (.closeLock rfl)
  have hupdate := clockedHistory_advance (i := 0) hcloseLock rfl (by rintro _ ⟨⟩) trivial
    (.closeUpdate rfl)
  have hclosed := clockedHistory_advance (i := 0) hupdate rfl (by rintro _ ⟨⟩) trivial .closeUnlock
  have hagain := clockedHistory_call hclosed (text "u") trivial
  have hlock' := clockedHistory_advance (i := 1) hagain rfl (by rintro _ ⟨⟩) trivial
    (.lockTable rfl)
  have hhit := clockedHistory_advance (i := 1) hlock' rfl (by rintro _ ⟨⟩) trivial (.hit rfl)
  have hrecord := clockedHistory_advance (i := 1) hhit rfl (by rintro _ ⟨⟩) trivial
    (.lockRecord rfl)
  have hdecide := hrecord.log ⟨trivial, .decide (i := 1) ⟨10, 10⟩ rfl rfl⟩
  obtain ⟨j, status, t, hmem, -, hopen⟩ := hall _ _ _ hdecide
    [.answered 0 (text "u") .shouldWrite 0, .closed 0] [] 1 (text "u") 10 rfl
  simp only [List.mem_cons, CacheEvent.answered.injEq, reduceCtorEq, List.not_mem_nil,
    or_false] at hmem
  rw [hmem.1] at hopen
  simp at hopen

/-- A call that comes while the record is being written. -/
theorem unavailable_inUse_beingWritten :
    ∃ p : CacheState × List CacheEvent, p.2 = [.answered 0 (text "u") .shouldWrite 0,
      .answered 1 (text "u") .unavailable 10] ∧ UnavailableInUse p.2 := by
  have hstart : (clockedHistory 10 id AwayFromExpiry).Reachable
      (⟨⟨[], none, fun _ ↦ none, 0⟩, []⟩, []) := clockedHistory_empty
  have hcall := clockedHistory_call hstart (text "u") (by rintro _ _ _ ⟨⟩)
  have hlock := clockedHistory_advance (i := 0) hcall rfl (by rintro _ ⟨⟩)
    (awayFromExpiry_of_pc _ rfl (by rintro _ ⟨⟩)) (.lockTable rfl)
  have hmiss := clockedHistory_advance (i := 0) hlock rfl (by rintro _ ⟨⟩)
    (awayFromExpiry_of_pc _ rfl (by rintro _ ⟨⟩)) (.miss rfl)
  have hcreate := clockedHistory_advance (i := 0) hmiss rfl (by rintro _ ⟨⟩)
    (awayFromExpiry_of_pc _ rfl (by rintro _ ⟨⟩)) (.create (Int.le_refl 0))
  have hunlock := clockedHistory_advance (i := 0) hcreate rfl (by rintro _ ⟨⟩)
    (awayFromExpiry_of_pc _ rfl (by rintro _ ⟨⟩)) .unlockTable
  have hagain := clockedHistory_call hunlock (text "u") (by rintro _ _ _ ⟨⟩)
  have hlock' := clockedHistory_advance (i := 1) hagain rfl (by rintro _ ⟨⟩)
    (awayFromExpiry_of_pc _ rfl (by rintro _ ⟨⟩)) (.lockTable rfl)
  have hhit := clockedHistory_advance (i := 1) hlock' rfl (by rintro _ ⟨⟩)
    (awayFromExpiry_of_pc _ rfl (by rintro _ ⟨⟩)) (.hit rfl)
  have hrecord := clockedHistory_advance (i := 1) hhit rfl (by rintro _ ⟨⟩)
    (awayFromExpiry_of_pc _ rfl (by rintro _ ⟨⟩)) (.lockRecord rfl)
  have hdecide := hrecord.log ⟨awayFromExpiry_of_writer _ rfl rfl (by decide),
    .decide (i := 1) ⟨10, 10⟩ rfl rfl⟩
  exact ⟨_, rfl, unavailable_inUse hdecide⟩

end HttpProxy
