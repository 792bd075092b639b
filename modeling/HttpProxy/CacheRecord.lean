import HttpProxy.Constants
import HttpProxy.Lib.ReadersWriter

/-!
# Cache records

The table of `cache-record.c` and the parts of `cache_record_get_or_create` and
`cache_record_close` that run under a lock.  A record is never removed, so its
pointer is its position in the table.
-/

namespace HttpProxy

open ReadersWriter

inductive ActionStatus where
  | unavailable
  | shouldRead
  | shouldWrite
  deriving DecidableEq, Repr

/-- `struct cache_record`, without the mutex and the hash handle. -/
structure CacheRecord where
  name : List UInt8
  expirationTime : ℤ
  writeInProgress : ℤ
  readers : ℤ
  deriving DecidableEq, Repr

/-- The records in the order in which `HASH_ADD_STR` added them. -/
abbrev CacheTable := List CacheRecord

/-- A new record starts with a write in progress. -/
def cacheRecordCreate (ttl : ℤ) (name : List UInt8) (now : ℤ) : CacheRecord where
  name := name
  expirationTime := now + ttl
  writeInProgress := 1
  readers := 0

/-- `HASH_FIND_STR` on the table: the position of the record with this name. -/
def hashFind (content : CacheTable) (name : List UInt8) : Option ℕ :=
  content.findIdx? fun record ↦ record.name == name

/-- The decision `cache_record_get_or_create` takes on a record it found, under the
record's mutex.  The clock is read twice, the second time by whichever branch
needs it. -/
def cacheRecordDecide (ttl : ℤ) (record : CacheRecord) (now later : ℤ) :
    ActionStatus × CacheRecord :=
  if record.expirationTime < now ∧ record.readers = 0 ∧ record.writeInProgress = 0 then
    (.shouldWrite, { record with writeInProgress := 1, expirationTime := later + ttl })
  else if record.expirationTime > later ∧ record.writeInProgress = 0 then
    (.shouldRead, { record with readers := record.readers + 1 })
  else
    (.unavailable, record)

/-- What `cache_record_close` does to the record under its mutex. -/
def cacheRecordUpdate (record : CacheRecord) : ActionStatus → CacheRecord
  | .shouldWrite => { record with writeInProgress := 0 }
  | .shouldRead => { record with readers := record.readers - 1 }
  | .unavailable => record

/-! ## The record counts its grants -/

/-- The counters of a record against the grants that are open on it. -/
def CacheRecord.Counts (record : CacheRecord) (g : Grants) : Prop :=
  record.readers = g.readers ∧ record.writeInProgress = g.writers

/-- The grant a status opens, added to the ones already there. -/
def addGrant (g : Grants) : ActionStatus → Grants
  | .unavailable => g
  | .shouldRead => ⟨g.readers + 1, g.writers⟩
  | .shouldWrite => ⟨g.readers, g.writers + 1⟩

theorem cacheRecordCreate_counts (ttl : ℤ) (name : List UInt8) (now : ℤ) :
    (cacheRecordCreate ttl name now).Counts (addGrant Grants.none .shouldWrite) := by
  simp [cacheRecordCreate, CacheRecord.Counts, addGrant, Grants.none]

@[simp] theorem cacheRecordDecide_name (ttl : ℤ) (record : CacheRecord) (now later : ℤ) :
    (cacheRecordDecide ttl record now later).2.name = record.name := by
  unfold cacheRecordDecide
  split
  · rfl
  · split <;> rfl

@[simp] theorem cacheRecordUpdate_name (record : CacheRecord) (status : ActionStatus) :
    (cacheRecordUpdate record status).name = record.name := by
  cases status <;> rfl

/-- A record nobody writes after the decision was not written before it, and the decision
was not to write. -/
theorem cacheRecordDecide_settled {ttl now later : ℤ} {record : CacheRecord}
    (h : (cacheRecordDecide ttl record now later).2.writeInProgress = 0) :
    record.writeInProgress = 0 ∧ (cacheRecordDecide ttl record now later).1 ≠ .shouldWrite := by
  unfold cacheRecordDecide at h ⊢
  split
  next hfree =>
    rw [if_pos hfree] at h
    simp at h
  next hfree =>
    rw [if_neg hfree] at h
    split
    next hread => exact ⟨hread.2, by simp⟩
    next hread =>
      rw [if_neg hread] at h
      exact ⟨h, by simp⟩

theorem cacheRecordDecide_shouldWrite {ttl now later : ℤ} {record : CacheRecord}
    (h : (cacheRecordDecide ttl record now later).1 = .shouldWrite) :
    record.readers = 0 ∧ record.writeInProgress = 0 := by
  unfold cacheRecordDecide at h
  split at h
  next hfree => exact hfree.2
  next => split at h <;> simp at h

/-- A decision to write sets the expiry time, a decision to read is made before it, and
no other decision moves it. -/
theorem cacheRecordDecide_expiry (ttl : ℤ) (record : CacheRecord) (now later : ℤ) :
    (cacheRecordDecide ttl record now later).1 = .shouldWrite ∧
        (cacheRecordDecide ttl record now later).2.expirationTime = later + ttl ∨
      ((cacheRecordDecide ttl record now later).1 = .shouldRead →
          later < record.expirationTime ∧ record.writeInProgress = 0) ∧
        (cacheRecordDecide ttl record now later).1 ≠ .shouldWrite ∧
          (cacheRecordDecide ttl record now later).2.expirationTime = record.expirationTime := by
  unfold cacheRecordDecide
  split
  · exact .inl ⟨rfl, rfl⟩
  · split
    next hread => exact .inr ⟨fun _ ↦ hread, by simp, rfl⟩
    next => exact .inr ⟨by simp, by simp, rfl⟩

/-- The decision opens exactly the grant it answers, and only where the
readers-writer discipline lets it. -/
theorem cacheRecordDecide_spec (ttl now later : ℤ) {record : CacheRecord} {g : Grants}
    (hg : record.Counts g) :
    Step g (addGrant g (cacheRecordDecide ttl record now later).1) ∧
      (cacheRecordDecide ttl record now later).2.Counts
        (addGrant g (cacheRecordDecide ttl record now later).1) := by
  obtain ⟨r, w⟩ := g
  obtain ⟨hr, hw⟩ := hg
  simp only at hr hw
  unfold cacheRecordDecide
  split
  next h =>
    have hr0 : r = 0 := by omega
    have hw0 : w = 0 := by omega
    subst hr0 hw0
    exact ⟨.acquireWrite, by simp [CacheRecord.Counts, addGrant, hr]⟩
  next =>
    split
    next h =>
      have hw0 : w = 0 := by omega
      subst hw0
      exact ⟨.acquireRead r, by simp [CacheRecord.Counts, addGrant, hr, hw]⟩
    next => exact ⟨.stay _, hr, hw⟩

theorem cacheRecordUpdate_spec (record : CacheRecord) {g : Grants} (status : ActionStatus)
    (hg : record.Counts (addGrant g status)) (hx : (addGrant g status).Exclusive) :
    Step (addGrant g status) g ∧ (cacheRecordUpdate record status).Counts g := by
  obtain ⟨r, w⟩ := g
  cases status with
  | unavailable => exact ⟨.stay _, hg⟩
  | shouldRead =>
      refine ⟨.releaseRead r w, ?_⟩
      simp only [CacheRecord.Counts, addGrant, cacheRecordUpdate] at hg ⊢
      omega
  | shouldWrite =>
      refine ⟨.releaseWrite r w, ?_⟩
      have hw : w = 0 := by
        have := hx.1
        simp only [addGrant] at this
        omega
      simp only [CacheRecord.Counts, addGrant, cacheRecordUpdate] at hg ⊢
      omega

/-! ## Looking a record up -/

theorem hashFind_none {content : CacheTable} {name : List UInt8}
    (h : hashFind content name = none) : ∀ record ∈ content, record.name ≠ name := by
  intro record hrecord
  simpa using List.findIdx?_eq_none_iff.mp h record hrecord

end HttpProxy
