import HttpProxy.CacheRecord
import HttpProxy.Lib.TransitionSystem
import Mathlib.Data.List.Nodup

/-!
# Runs of the cache-record table

Any number of calls of `cache_record_get_or_create`, each followed by one
`cache_record_close` with the status it was given, interleaved at their locks.
The table mutex spans lookup and creation, a record's mutex each decision and each
close, so the two closes of a run may overlap any lookup.

The invariant says that the counters of a record are the grants open on it.
-/

namespace HttpProxy

open Transition ReadersWriter

/-- Where a call is: the lines of `cache_record_get_or_create`, the time its caller
holds the grant, and the lines of `cache_record_close`. -/
inductive CallPc where
  | lockTable (key : List UInt8)
  | find (key : List UInt8)
  | create (key : List UInt8)
  | lockRecord (r : ℕ)
  | decide (r : ℕ)
  | unlockRecord (r : ℕ) (status : ActionStatus)
  | unlockTable (r : ℕ) (status : ActionStatus)
  | granted (r : ℕ) (status : ActionStatus)
  | closeLock (r : ℕ) (status : ActionStatus)
  | closeUpdate (r : ℕ) (status : ActionStatus)
  | closeUnlock (r : ℕ)
  | closed
  | refused
  deriving DecidableEq, Repr

/-- What the threads share: the table, the two kinds of mutex (by the call that owns
them) and the clock. -/
structure CacheShared where
  content : CacheTable
  tableMutex : Option ℕ
  recordMutex : ℕ → Option ℕ
  clock : ℤ

structure CacheState where
  shared : CacheShared
  calls : List CallPc

inductive CallStep (ttl : ℤ) (i : ℕ) :
    CacheShared → CallPc → CacheShared → CallPc → Prop
  | lockTable {sh : CacheShared} {key : List UInt8} (hfree : sh.tableMutex = none) :
      CallStep ttl i sh (.lockTable key) { sh with tableMutex := some i } (.find key)
  | miss {sh : CacheShared} {key : List UInt8} (h : hashFind sh.content key = none) :
      CallStep ttl i sh (.find key) sh (.create key)
  | hit {sh : CacheShared} {key : List UInt8} {r : ℕ} (h : hashFind sh.content key = some r) :
      CallStep ttl i sh (.find key) sh (.lockRecord r)
  | create {sh : CacheShared} {key : List UInt8} {now : ℤ} (hnow : sh.clock ≤ now) :
      CallStep ttl i sh (.create key)
        { sh with content := sh.content ++ [cacheRecordCreate ttl key now], clock := now }
        (.unlockTable sh.content.length .shouldWrite)
  | lockRecord {sh : CacheShared} {r : ℕ} (hfree : sh.recordMutex r = none) :
      CallStep ttl i sh (.lockRecord r)
        { sh with recordMutex := Function.update sh.recordMutex r (some i) } (.decide r)
  | decide {sh : CacheShared} {r : ℕ} {record : CacheRecord} {now later : ℤ}
      (hrecord : sh.content[r]? = some record) (hnow : sh.clock ≤ now) (hlater : now ≤ later) :
      CallStep ttl i sh (.decide r)
        { sh with
          content := sh.content.set r (cacheRecordDecide ttl record now later).2
          clock := later }
        (.unlockRecord r (cacheRecordDecide ttl record now later).1)
  | unlockRecord {sh : CacheShared} {r : ℕ} {status : ActionStatus} :
      CallStep ttl i sh (.unlockRecord r status)
        { sh with recordMutex := Function.update sh.recordMutex r none } (.unlockTable r status)
  | unlockTable {sh : CacheShared} {r : ℕ} {status : ActionStatus} :
      CallStep ttl i sh (.unlockTable r status)
        { sh with tableMutex := none } (.granted r status)
  | close {sh : CacheShared} {r : ℕ} {status : ActionStatus} :
      CallStep ttl i sh (.granted r status) sh (.closeLock r status)
  | closeLock {sh : CacheShared} {r : ℕ} {status : ActionStatus}
      (hfree : sh.recordMutex r = none) :
      CallStep ttl i sh (.closeLock r status)
        { sh with recordMutex := Function.update sh.recordMutex r (some i) }
        (.closeUpdate r status)
  | closeUpdate {sh : CacheShared} {r : ℕ} {status : ActionStatus} {record : CacheRecord}
      (hrecord : sh.content[r]? = some record) :
      CallStep ttl i sh (.closeUpdate r status)
        { sh with content := sh.content.set r (cacheRecordUpdate record status) }
        (.closeUnlock r)
  | closeUnlock {sh : CacheShared} {r : ℕ} :
      CallStep ttl i sh (.closeUnlock r)
        { sh with recordMutex := Function.update sh.recordMutex r none } .closed

inductive CacheLabel where
  | tick (now : ℤ)
  | call (url : List UInt8)
  | advance (i : ℕ)

/-- A new call hashes its url before it takes a lock.  A url over the limit is refused
with a NULL record, and nothing is left to close. -/
def enterCall (md5sum : List UInt8 → List UInt8) (url : List UInt8) : CallPc :=
  if url.length > urlMaxLength then .refused else .lockTable (md5sum url)

inductive CacheStep (ttl : ℤ) (md5sum : List UInt8 → List UInt8) :
    CacheState → CacheLabel → CacheState → Prop
  | tick {s : CacheState} {now : ℤ} (h : s.shared.clock ≤ now) :
      CacheStep ttl md5sum s (.tick now)
        { s with shared := { s.shared with clock := now } }
  | call {s : CacheState} (url : List UInt8) :
      CacheStep ttl md5sum s (.call url)
        { s with calls := s.calls ++ [enterCall md5sum url] }
  | advance {s : CacheState} {i : ℕ} {pc pc' : CallPc} {sh' : CacheShared}
      (hpc : s.calls[i]? = some pc) (h : CallStep ttl i s.shared pc sh' pc') :
      CacheStep ttl md5sum s (.advance i) ⟨sh', s.calls.set i pc'⟩

/-- The table starts empty with its mutex free. -/
def cacheSystem (ttl : ℤ) (md5sum : List UInt8 → List UInt8) : System CacheState CacheLabel where
  Init s := s.shared.content = [] ∧ s.shared.tableMutex = none ∧
    (∀ r, s.shared.recordMutex r = none) ∧ s.calls = []
  Step := CacheStep ttl md5sum

/-! ## Open grants -/

/-- The grant a call holds: from the step that decides on it to the step that takes it
off the record again. -/
def CallPc.grant : CallPc → Option (ℕ × ActionStatus)
  | .unlockRecord r status => some (r, status)
  | .unlockTable r status => some (r, status)
  | .granted r status => some (r, status)
  | .closeLock r status => some (r, status)
  | .closeUpdate r status => some (r, status)
  | _ => none

def openGrants (calls : List CallPc) (r : ℕ) (status : ActionStatus) : ℕ :=
  calls.countP fun pc ↦ pc.grant == some (r, status)

def grantsOf (calls : List CallPc) (r : ℕ) : Grants :=
  ⟨openGrants calls r .shouldRead, openGrants calls r .shouldWrite⟩

/-- All that a step can do to the table and to the grant of the call that takes it. -/
inductive GrantChange (ttl : ℤ) (content content' : CacheTable) (pc pc' : CallPc) : Prop
  | keep (hcontent : content' = content) (hgrant : pc'.grant = pc.grant)
  | create (key : List UInt8) (now : ℤ) (hpc : pc.grant = none)
      (hcontent : content' = content ++ [cacheRecordCreate ttl key now])
      (hgrant : pc'.grant = some (content.length, .shouldWrite))
  | open (r : ℕ) (record : CacheRecord) (now later : ℤ) (hpc : pc.grant = none)
      (hrecord : content[r]? = some record)
      (hcontent : content' = content.set r (cacheRecordDecide ttl record now later).2)
      (hgrant : pc'.grant = some (r, (cacheRecordDecide ttl record now later).1))
  | close (r : ℕ) (record : CacheRecord) (status : ActionStatus)
      (hpc : pc.grant = some (r, status)) (hrecord : content[r]? = some record)
      (hcontent : content' = content.set r (cacheRecordUpdate record status))
      (hgrant : pc'.grant = none)

theorem CallStep.grantChange {ttl : ℤ} {i : ℕ} {sh sh' : CacheShared} {pc pc' : CallPc}
    (h : CallStep ttl i sh pc sh' pc') : GrantChange ttl sh.content sh'.content pc pc' := by
  cases h with
  | create => exact .create _ _ rfl rfl rfl
  | decide hrecord => exact .open _ _ _ _ rfl hrecord rfl rfl
  | closeUpdate hrecord => exact .close _ _ _ rfl hrecord rfl rfl
  | _ => exact .keep rfl rfl

section GrantCounts

variable {calls : List CallPc} {i : ℕ} {pc pc' : CallPc}

theorem openGrants_set_eq (hpc : calls[i]? = some pc) {r : ℕ} {status : ActionStatus}
    (h : (pc'.grant == some (r, status)) = (pc.grant == some (r, status))) :
    openGrants (calls.set i pc') r status = openGrants calls r status :=
  countP_set_eq hpc h.symm

theorem openGrants_set_open (hpc : calls[i]? = some pc) {r : ℕ} {status : ActionStatus}
    (h₀ : pc.grant = none) (h₁ : pc'.grant = some (r, status)) :
    openGrants (calls.set i pc') r status = openGrants calls r status + 1 := by
  have h := countP_set_add (p := fun pc ↦ pc.grant == some (r, status)) (b := pc') hpc
  simpa [openGrants, h₀, h₁] using h

theorem grantsOf_set_keep (hpc : calls[i]? = some pc) (h : pc'.grant = pc.grant) (r : ℕ) :
    grantsOf (calls.set i pc') r = grantsOf calls r := by
  unfold grantsOf
  rw [openGrants_set_eq hpc (by rw [h]), openGrants_set_eq hpc (by rw [h])]

theorem grantsOf_set_open (hpc : calls[i]? = some pc) {r : ℕ} {status : ActionStatus}
    (h₀ : pc.grant = none) (h₁ : pc'.grant = some (r, status)) :
    grantsOf (calls.set i pc') r = addGrant (grantsOf calls r) status := by
  have hother : ∀ st, st ≠ status →
      openGrants (calls.set i pc') r st = openGrants calls r st := by
    intro st hst
    exact openGrants_set_eq hpc (by simp [h₀, h₁, Ne.symm hst])
  have hself := openGrants_set_open hpc h₀ h₁
  cases status with
  | unavailable => simp [grantsOf, addGrant, hother]
  | shouldRead => simp [grantsOf, addGrant, hother, hself]
  | shouldWrite => simp [grantsOf, addGrant, hother, hself]

theorem grantsOf_set_open_ne (hpc : calls[i]? = some pc) {r : ℕ} {status : ActionStatus}
    (h₀ : pc.grant = none) (h₁ : pc'.grant = some (r, status)) (r' : ℕ) (hr : r' ≠ r) :
    grantsOf (calls.set i pc') r' = grantsOf calls r' := by
  have hstay : ∀ st, openGrants (calls.set i pc') r' st = openGrants calls r' st := by
    intro st
    exact openGrants_set_eq hpc (by simp [h₀, h₁, Ne.symm hr])
  simp [grantsOf, hstay]

/-- Closing is opening read backwards. -/
theorem set_set_back (hpc : calls[i]? = some pc) : (calls.set i pc').set i pc = calls := by
  rw [List.set_set]
  obtain ⟨hi, rfl⟩ := List.getElem?_eq_some_iff.mp hpc
  exact List.set_getElem_self hi

theorem getElem?_set_here {α : Type} {l : List α} {a : α} (h : l[i]? = some a) (b : α) :
    (l.set i b)[i]? = some b := by
  obtain ⟨hi, -⟩ := List.getElem?_eq_some_iff.mp h
  simp [hi]

theorem grantsOf_set_close (hpc : calls[i]? = some pc) {r : ℕ} {status : ActionStatus}
    (h₀ : pc.grant = some (r, status)) (h₁ : pc'.grant = none) :
    grantsOf calls r = addGrant (grantsOf (calls.set i pc') r) status := by
  have h := grantsOf_set_open (getElem?_set_here hpc pc') h₁ h₀
  rwa [set_set_back hpc] at h

theorem grantsOf_set_close_ne (hpc : calls[i]? = some pc) {r : ℕ} {status : ActionStatus}
    (h₀ : pc.grant = some (r, status)) (h₁ : pc'.grant = none) (r' : ℕ) (hr : r' ≠ r) :
    grantsOf (calls.set i pc') r' = grantsOf calls r' := by
  have h := grantsOf_set_open_ne (getElem?_set_here hpc pc') h₁ h₀ r' hr
  rw [set_set_back hpc] at h
  exact h.symm

theorem grantsOf_append (calls : List CallPc) (h : pc.grant = none) (r : ℕ) :
    grantsOf (calls ++ [pc]) r = grantsOf calls r := by
  simp [grantsOf, openGrants, List.countP_append, h]

end GrantCounts

/-! ## The counters are the open grants -/

/-- Every record counts the grants open on it, those grants are exclusive, and no grant
points past the table. -/
structure GrantsCounted (s : CacheState) : Prop where
  counts : ∀ (r : ℕ) (record : CacheRecord), s.shared.content[r]? = some record →
    record.Counts (grantsOf s.calls r)
  exclusive : ∀ r, (grantsOf s.calls r).Exclusive
  stray : ∀ r, s.shared.content.length ≤ r → grantsOf s.calls r = Grants.none

variable {ttl : ℤ} {md5sum : List UInt8 → List UInt8}

theorem enterCall_grant (url : List UInt8) : (enterCall md5sum url).grant = none := by
  unfold enterCall
  split <;> rfl

theorem GrantsCounted.enter {s : CacheState} (hs : GrantsCounted s) {pc : CallPc}
    (hpc : pc.grant = none) : GrantsCounted { s with calls := s.calls ++ [pc] } := by
  have hsame := grantsOf_append s.calls hpc
  refine ⟨?_, ?_, ?_⟩
  · simpa [hsame] using hs.counts
  · simpa [hsame] using hs.exclusive
  · simpa [hsame] using hs.stray

/-- The counters stay right if one record is replaced and the grants on all others are left as
they are. -/
theorem GrantsCounted.set {s s' : CacheState} (hs : GrantsCounted s) {r : ℕ}
    {record : CacheRecord} (hlt : r < s.shared.content.length)
    (hcontent : s'.shared.content = s.shared.content.set r record)
    (hcounts : record.Counts (grantsOf s'.calls r)) (hexclusive : (grantsOf s'.calls r).Exclusive)
    (hold : ∀ r', r' ≠ r → grantsOf s'.calls r' = grantsOf s.calls r') : GrantsCounted s' := by
  refine ⟨?_, ?_, ?_⟩
  · intro r' record' hrecord'
    rw [hcontent] at hrecord'
    by_cases hr : r' = r
    · subst hr
      simp only [List.getElem?_set_self hlt, Option.some.injEq] at hrecord'
      rw [← hrecord']
      exact hcounts
    · rw [List.getElem?_set_ne (Ne.symm hr)] at hrecord'
      rw [hold r' hr]
      exact hs.counts r' record' hrecord'
  · intro r'
    by_cases hr : r' = r
    · subst hr
      exact hexclusive
    · rw [hold r' hr]
      exact hs.exclusive r'
  · intro r' hr'
    rw [hcontent, List.length_set] at hr'
    rw [hold r' (by omega)]
    exact hs.stray r' hr'

/-- One call's step keeps the counters right: one case for each thing a step can do. -/
theorem GrantsCounted.advance {s : CacheState} (hs : GrantsCounted s) {i : ℕ}
    {pc pc' : CallPc} {sh' : CacheShared} (hpc : s.calls[i]? = some pc)
    (h : GrantChange ttl s.shared.content sh'.content pc pc') :
    GrantsCounted ⟨sh', s.calls.set i pc'⟩ := by
  cases h with
  | keep hcontent hgrant =>
      have hsame := grantsOf_set_keep hpc hgrant
      refine ⟨?_, ?_, ?_⟩
      · simpa [hcontent, hsame] using hs.counts
      · simpa [hsame] using hs.exclusive
      · simpa [hcontent, hsame] using hs.stray
  | create key now hnone hcontent hgrant =>
      have hnew := grantsOf_set_open hpc hnone hgrant
      rw [hs.stray _ (Nat.le_refl _)] at hnew
      have hold := grantsOf_set_open_ne hpc hnone hgrant
      refine ⟨?_, ?_, ?_⟩
      · intro r record hrecord
        simp only [hcontent] at hrecord
        rcases Nat.lt_trichotomy r s.shared.content.length with hr | rfl | hr
        · rw [List.getElem?_append_left hr] at hrecord
          rw [hold r (Nat.ne_of_lt hr)]
          exact hs.counts r record hrecord
        · simp only [List.getElem?_append_right (Nat.le_refl _), Nat.sub_self,
            List.getElem?_cons_zero, Option.some.injEq] at hrecord
          rw [hnew, ← hrecord]
          exact cacheRecordCreate_counts ttl key now
        · rw [List.getElem?_eq_none (by simp; omega)] at hrecord
          cases hrecord
      · intro r
        by_cases hr : r = s.shared.content.length
        · subst hr
          rw [hnew]
          exact Step.acquireWrite.exclusive Grants.exclusive_none
        · rw [hold r hr]
          exact hs.exclusive r
      · intro r hr
        simp only [hcontent, List.length_append, List.length_singleton] at hr
        rw [hold r (by omega)]
        exact hs.stray r (by omega)
  | «open» r record now later hnone hrecord hcontent hgrant =>
      obtain ⟨hstep, hcounts⟩ :=
        cacheRecordDecide_spec ttl now later (hs.counts r record hrecord)
      have hlt : r < s.shared.content.length := (List.getElem?_eq_some_iff.mp hrecord).1
      have hself := grantsOf_set_open hpc hnone hgrant
      exact hs.set hlt hcontent (hself ▸ hcounts) (hself ▸ hstep.exclusive (hs.exclusive r))
        (grantsOf_set_open_ne hpc hnone hgrant)
  | close r record status hgranted hrecord hcontent hgrant =>
      have hself := grantsOf_set_close hpc hgranted hgrant
      obtain ⟨hstep, hcounts⟩ := cacheRecordUpdate_spec record status
        (hself ▸ hs.counts r record hrecord) (hself ▸ hs.exclusive r)
      have hlt : r < s.shared.content.length := (List.getElem?_eq_some_iff.mp hrecord).1
      exact hs.set hlt hcontent hcounts (hstep.exclusive (hself ▸ hs.exclusive r))
        (grantsOf_set_close_ne hpc hgranted hgrant)

theorem grantsCounted_reachable {s : CacheState}
    (hs : (cacheSystem ttl md5sum).Reachable s) : GrantsCounted s := by
  induction hs with
  | init h =>
      obtain ⟨hcontent, -, -, hcalls⟩ := h
      refine ⟨?_, ?_, ?_⟩ <;>
        simp [hcontent, hcalls, grantsOf, openGrants, Grants.Exclusive, Grants.none]
  | step _ h ih =>
      cases h with
      | tick => exact ⟨ih.counts, ih.exclusive, ih.stray⟩
      | call url => exact ih.enter (enterCall_grant url)
      | advance hpc h => exact ih.advance hpc h.grantChange

/-! ## One record for each key

The table mutex is held from the lookup that finds no record to the insertion, so two
calls never insert the same key. -/

/-- The calls between `pthread_mutex_lock(&(table->mutex))` and its unlock. -/
def CallPc.OwnsTable : CallPc → Prop
  | .find _ => True
  | .create _ => True
  | .lockRecord _ => True
  | .decide _ => True
  | .unlockRecord _ _ => True
  | .unlockTable _ _ => True
  | _ => False

/-- The table mutex records which call is inside. -/
def TableLocked (s : CacheState) : Prop :=
  ∀ (i : ℕ) (pc : CallPc), s.calls[i]? = some pc → pc.OwnsTable → s.shared.tableMutex = some i

theorem CallStep.ownsTable {i : ℕ} {sh sh' : CacheShared} {pc pc' : CallPc}
    (h : CallStep ttl i sh pc sh' pc') :
    (sh'.tableMutex = sh.tableMutex ∧ (pc'.OwnsTable → pc.OwnsTable)) ∨
      (sh.tableMutex = none ∧ sh'.tableMutex = some i) ∨
        (pc.OwnsTable ∧ sh'.tableMutex = none ∧ ¬ pc'.OwnsTable) := by
  cases h with
  | lockTable hfree => exact .inr (.inl ⟨hfree, rfl⟩)
  | unlockTable => exact .inr (.inr ⟨trivial, rfl, id⟩)
  | _ => exact .inl ⟨rfl, by simp [CallPc.OwnsTable]⟩

theorem enterCall_not_ownsTable (url : List UInt8) : ¬ (enterCall md5sum url).OwnsTable := by
  unfold enterCall
  split <;> exact id

theorem getElem?_append_new {calls : List CallPc} {i : ℕ} {pc new : CallPc}
    (h : (calls ++ [new])[i]? = some pc) : calls[i]? = some pc ∨ pc = new := by
  rcases Nat.lt_or_ge i calls.length with hi | hi
  · exact .inl (by rwa [List.getElem?_append_left hi] at h)
  · rw [List.getElem?_append_right hi] at h
    exact .inr (List.mem_singleton.mp (List.mem_of_getElem? h))

theorem tableLocked_reachable {s : CacheState}
    (hs : (cacheSystem ttl md5sum).Reachable s) : TableLocked s := by
  refine System.reachable_induction (I := TableLocked) ?_ ?_ hs
  · rintro s ⟨-, -, -, hcalls⟩ i pc hpc
    simp [hcalls] at hpc
  · intro s a s' ih h
    cases h with
    | tick => exact ih
    | call url =>
        intro i pc hpc howns
        rcases getElem?_append_new hpc with hold | rfl
        · exact ih i pc hold howns
        · exact absurd howns (enterCall_not_ownsTable url)
    | @advance j pc pc' sh' hj h =>
        intro i q hq howns
        by_cases hij : i = j
        · subst hij
          obtain rfl : pc' = q := by simpa [getElem?_set_here hj _] using hq
          rcases h.ownsTable with ⟨hsame, hback⟩ | ⟨-, hlocked⟩ | ⟨-, -, hout⟩
          · exact hsame.trans (ih i pc hj (hback howns))
          · exact hlocked
          · exact absurd howns hout
        · have hold : s.calls[i]? = some q := by
            simpa [List.getElem?_set_ne (Ne.symm hij)] using hq
          have hmine := ih i q hold howns
          rcases h.ownsTable with ⟨hsame, -⟩ | ⟨hfree, -⟩ | ⟨hpc, -, -⟩
          · exact hsame.trans hmine
          · simp [hfree] at hmine
          · have := ih j pc hj hpc
            rw [hmine] at this
            exact absurd (Option.some.inj this) hij

/-- No two records share a name, and a call about to insert a key is the only one: the
table still has no record of that name. -/
structure KeysUnique (s : CacheState) : Prop where
  nodup : (s.shared.content.map CacheRecord.name).Nodup
  fresh : ∀ (i : ℕ) (key : List UInt8), s.calls[i]? = some (.create key) →
    ∀ record ∈ s.shared.content, record.name ≠ key

theorem map_name_set {content : CacheTable} {r : ℕ} {record record' : CacheRecord}
    (hrecord : content[r]? = some record) (hname : record'.name = record.name) :
    (content.set r record').map CacheRecord.name = content.map CacheRecord.name := by
  obtain ⟨hr, rfl⟩ := List.getElem?_eq_some_iff.mp hrecord
  rw [List.map_set, hname, ← List.getElem_map CacheRecord.name (h := by simpa using hr)]
  exact List.set_getElem_self _

theorem CallStep.names {i : ℕ} {sh sh' : CacheShared} {pc pc' : CallPc}
    (h : CallStep ttl i sh pc sh' pc') :
    sh'.content.map CacheRecord.name = sh.content.map CacheRecord.name ∨
      ∃ key, pc = .create key ∧
        sh'.content.map CacheRecord.name = sh.content.map CacheRecord.name ++ [key] := by
  cases h with
  | create => exact .inr ⟨_, rfl, by simp [cacheRecordCreate]⟩
  | decide hrecord => exact .inl (map_name_set hrecord (cacheRecordDecide_name ..))
  | closeUpdate hrecord => exact .inl (map_name_set hrecord (cacheRecordUpdate_name ..))
  | _ => exact .inl rfl

theorem CallStep.to_create {i : ℕ} {sh sh' : CacheShared} {pc : CallPc} {key : List UInt8}
    (h : CallStep ttl i sh pc sh' (.create key)) :
    sh' = sh ∧ hashFind sh.content key = none := by
  cases h with
  | miss h => exact ⟨rfl, h⟩

theorem keysUnique_reachable {s : CacheState}
    (hs : (cacheSystem ttl md5sum).Reachable s) : KeysUnique s := by
  refine System.Preserves.reachable (K := TableLocked) (I := KeysUnique) ⟨?_, ?_⟩
    (fun _ ↦ tableLocked_reachable) hs
  · rintro s ⟨hcontent, -, -, hcalls⟩
    exact ⟨by simp [hcontent], by simp [hcalls]⟩
  · intro s a s' hlock ih h
    cases h with
    | tick => exact ⟨ih.nodup, ih.fresh⟩
    | call url =>
        refine ⟨ih.nodup, ?_⟩
        intro i key hi
        rcases getElem?_append_new hi with hold | hnew
        · exact ih.fresh i key hold
        · have : ¬(enterCall md5sum url).OwnsTable := enterCall_not_ownsTable url
          rw [← hnew] at this
          exact absurd trivial this
    | @advance j pc pc' sh' hj h =>
        constructor
        · rcases h.names with hsame | ⟨key, rfl, happend⟩
          · simpa only [hsame] using ih.nodup
          · have hnew : key ∉ s.shared.content.map CacheRecord.name := by
              intro hmem
              obtain ⟨record, hrecord, hname⟩ := List.mem_map.mp hmem
              exact ih.fresh j key hj record hrecord hname
            simpa only [happend] using List.nodup_append.mpr
              ⟨ih.nodup, by simp, by rintro _ ha _ hb rfl; simp at hb; exact hnew (hb ▸ ha)⟩
        · intro i key hi record hrecord
          by_cases hij : i = j
          · subst hij
            obtain rfl : pc' = .create key := by simpa [getElem?_set_here hj _] using hi
            obtain ⟨rfl, hnone⟩ := h.to_create
            exact hashFind_none hnone record hrecord
          · have hold : s.calls[i]? = some (.create key) := by
              simpa [List.getElem?_set_ne (Ne.symm hij)] using hi
            have hname : record.name ∈ sh'.content.map CacheRecord.name :=
              List.mem_map_of_mem hrecord
            rcases h.names with hsame | ⟨key', rfl, -⟩
            · rw [hsame] at hname
              obtain ⟨record', hrecord', hname'⟩ := List.mem_map.mp hname
              rw [← hname']
              exact ih.fresh i key hold record' hrecord'
            · have hi' := hlock i _ hold trivial
              rw [hlock j _ hj trivial] at hi'
              exact absurd (Option.some.inj hi').symm hij

/-! ## Reader/writer exclusion -/

/-- The table as its callers rely on it: one record for a key, counters that are the
open grants, at most one writer, and no writer beside a reader. -/
def ReadersWriterExclusion (s : CacheState) : Prop :=
  (∀ key : List UInt8, s.shared.content.countP (fun record ↦ record.name == key) ≤ 1) ∧
    ∀ (r : ℕ) (record : CacheRecord), s.shared.content[r]? = some record →
      record.readers = openGrants s.calls r .shouldRead ∧ 0 ≤ record.readers ∧
      (record.writeInProgress = 1 ↔ openGrants s.calls r .shouldWrite = 1) ∧
      (record.writeInProgress = 0 ↔ openGrants s.calls r .shouldWrite ≠ 1) ∧
      openGrants s.calls r .shouldWrite ≤ 1 ∧
      ¬ (0 < openGrants s.calls r .shouldWrite ∧ 0 < openGrants s.calls r .shouldRead)

/-- Every interleaving of lookups and closes keeps readers and writers apart. -/
theorem cacheRecords_exclusion {s : CacheState}
    (hs : (cacheSystem ttl md5sum).Reachable s) : ReadersWriterExclusion s := by
  have hcounted := grantsCounted_reachable hs
  constructor
  · intro key
    have hnodup := (keysUnique_reachable hs).nodup
    have hcount := List.nodup_iff_count_le_one.mp hnodup key
    rwa [List.count, List.countP_map] at hcount
  · intro r record hrecord
    obtain ⟨hr, hw⟩ := hcounted.counts r record hrecord
    obtain ⟨hone, hnone⟩ := hcounted.exclusive r
    simp only [grantsOf] at hr hw hone hnone
    refine ⟨hr, by omega, by omega, by omega, hone, ?_⟩
    rintro ⟨hpos, hread⟩
    exact absurd (hnone hpos) (by omega)

/-- The table after the first lookup of a url has inserted its record. -/
def firstLookup : CacheState where
  shared :=
    { content := [cacheRecordCreate 10 (text "u") 0]
      tableMutex := some 0
      recordMutex := fun _ ↦ none
      clock := 0 }
  calls := [.unlockTable 0 .shouldWrite]

theorem firstLookup_reachable : (cacheSystem 10 id).Reachable firstLookup := by
  have hinit : (cacheSystem 10 id).Reachable ⟨⟨[], none, fun _ ↦ none, 0⟩, []⟩ :=
    .init ⟨rfl, rfl, fun _ ↦ rfl, rfl⟩
  have hcall := hinit.step (.call (text "u"))
  have hlock := hcall.step (.advance (i := 0) rfl (.lockTable rfl))
  have hmiss := hlock.step (.advance (i := 0) rfl (.miss rfl))
  exact hmiss.step (.advance (i := 0) rfl (.create (Int.le_refl 0)))

theorem cacheRecords_exclusion_firstLookup : ReadersWriterExclusion firstLookup :=
  cacheRecords_exclusion firstLookup_reachable

end HttpProxy
