import HttpProxy.CacheRecordRuns
import HttpProxy.UthashMap

/-!
# The cache table on uthash

The runs of the cache-record table with the uthash table that `cache-record.c` keeps: a lookup
is `HASH_FIND_STR`, and a new record is added by `HASH_ADD_STR` under its name.  The records
themselves stay where they were allocated.
-/

namespace HttpProxy

open Transition System

/-- What the `content` of a cache table points to; an element is the address of a record. -/
abbrev HashedContent := Option (UtHashTable ℕ)

/-- The steps of a call on the uthash table.  A step that neither looks a record up nor adds one
does not touch it. -/
inductive HashedCallStep (hashFunction : List UInt8 → UInt32) (ttl : ℤ) (i : ℕ) :
    CacheShared × HashedContent → CallPc → CacheShared × HashedContent → CallPc → Prop
  | miss {sh : CacheShared} {head : HashedContent} {key : List UInt8}
      (h : hashFindStr hashFunction head key = none) :
      HashedCallStep hashFunction ttl i (sh, head) (.find key) (sh, head) (.create key)
  | hit {sh : CacheShared} {head : HashedContent} {key : List UInt8} {r : ℕ}
      (h : hashFindStr hashFunction head key = some r) :
      HashedCallStep hashFunction ttl i (sh, head) (.find key) (sh, head) (.lockRecord r)
  | create {sh : CacheShared} {head : HashedContent} {key : List UInt8} {now : ℤ}
      (hnow : sh.clock ≤ now) :
      HashedCallStep hashFunction ttl i (sh, head) (.create key)
        ({ sh with content := sh.content ++ [cacheRecordCreate ttl key now], clock := now },
          some (hashAddStr hashFunction head key sh.content.length))
        (.unlockTable sh.content.length .shouldWrite)
  | other {sh sh' : CacheShared} {head : HashedContent} {pc pc' : CallPc}
      (hfind : ∀ key, pc ≠ .find key) (hcreate : ∀ key, pc ≠ .create key)
      (h : CallStep ttl i sh pc sh' pc') :
      HashedCallStep hashFunction ttl i (sh, head) pc (sh', head) pc'

structure HashedCacheState where
  cache : CacheState
  head : HashedContent

inductive HashedCacheStep (hashFunction : List UInt8 → UInt32) (ttl : ℤ)
    (md5sum : List UInt8 → List UInt8) :
    HashedCacheState → CacheLabel → HashedCacheState → Prop
  | tick {s : HashedCacheState} {now : ℤ} (h : s.cache.shared.clock ≤ now) :
      HashedCacheStep hashFunction ttl md5sum s (.tick now)
        { s with cache := { s.cache with shared := { s.cache.shared with clock := now } } }
  | call {s : HashedCacheState} (url : List UInt8) :
      HashedCacheStep hashFunction ttl md5sum s (.call url)
        { s with cache := { s.cache with calls := s.cache.calls ++ [enterCall md5sum url] } }
  | advance {s : HashedCacheState} {i : ℕ} {pc pc' : CallPc} {sh' : CacheShared}
      {head' : HashedContent} (hpc : s.cache.calls[i]? = some pc)
      (h : HashedCallStep hashFunction ttl i (s.cache.shared, s.head) pc (sh', head') pc') :
      HashedCacheStep hashFunction ttl md5sum s (.advance i) ⟨⟨sh', s.cache.calls.set i pc'⟩, head'⟩

/-- `cache_table_create` leaves the content NULL. -/
def hashedCacheSystem (hashFunction : List UInt8 → UInt32) (ttl : ℤ)
    (md5sum : List UInt8 → List UInt8) : System HashedCacheState CacheLabel where
  Init s := (cacheSystem ttl md5sum).Init s.cache ∧ s.head = none
  Step := HashedCacheStep hashFunction ttl md5sum

variable {hashFunction : List UInt8 → UInt32} {ttl : ℤ} {md5sum : List UInt8 → List UInt8}
  {i : ℕ} {sh sh' : CacheShared} {head head' : HashedContent} {pc pc' : CallPc}
  {content : CacheTable} {key : List UInt8}

/-- The uthash table has each record under its name, in the order they were created in. -/
structure HashesRecords (hashFunction : List UInt8 → UInt32) (head : HashedContent)
    (content : CacheTable) : Prop where
  wellFormed : HeadWellFormed hashFunction head
  entries : hashEntries head = (content.map CacheRecord.name).zipIdx

theorem hashFind_of_getElem? (hnodup : (content.map CacheRecord.name).Nodup) {r : ℕ}
    (h : (content.map CacheRecord.name)[r]? = some key) : hashFind content key = some r := by
  rw [List.getElem?_map, Option.map_eq_some_iff] at h
  obtain ⟨record, hrecord, rfl⟩ := h
  obtain ⟨hr, hget⟩ := List.getElem?_eq_some_iff.mp hrecord
  rw [hashFind, List.findIdx?_eq_some_iff_getElem]
  refine ⟨hr, by simp [hget], fun j hj hname ↦ ?_⟩
  have hlt : j < content.length := Nat.lt_trans hj hr
  have hsame : (content.map CacheRecord.name)[j]? = (content.map CacheRecord.name)[r]? := by
    simpa [hlt, hr, hget] using hname
  have hindex := (List.getElem?_inj (by simpa using hlt) hnodup).mp hsame
  omega

/-- With one record for a name, the uthash table finds the record that the list has. -/
theorem HashesRecords.find (h : HashesRecords hashFunction head content)
    (hnodup : (content.map CacheRecord.name).Nodup) (key : List UInt8) :
    hashFindStr hashFunction head key = hashFind content key := by
  obtain ⟨hnone, hsome⟩ := hashFindStr_entries h.wellFormed key
  rw [h.entries] at hnone hsome
  cases hfind : hashFindStr hashFunction head key with
  | none =>
      have hmiss := hnone.mp hfind
      rw [List.zipIdx_map_fst] at hmiss
      symm
      rw [hashFind, List.findIdx?_eq_none_iff]
      intro record hrecord
      rw [beq_eq_false_iff_ne]
      rintro rfl
      exact hmiss (List.mem_map_of_mem hrecord)
  | some r =>
      have hat := List.mk_mem_zipIdx_iff_getElem?.mp (hsome r hfind)
      exact (hashFind_of_getElem? hnodup hat).symm

theorem HashesRecords.of_names {content' : CacheTable}
    (h : HashesRecords hashFunction head content)
    (hnames : content'.map CacheRecord.name = content.map CacheRecord.name) :
    HashesRecords hashFunction head content' :=
  ⟨h.wellFormed, by rw [h.entries, hnames]⟩

theorem HashesRecords.create (h : HashesRecords hashFunction head content) (key : List UInt8)
    (now : ℤ) :
    HashesRecords hashFunction (some (hashAddStr hashFunction head key content.length))
      (content ++ [cacheRecordCreate ttl key now]) := by
  refine ⟨h.wellFormed.addStr _ _, ?_⟩
  rw [hashEntries_hashAddStr, h.entries, List.map_append, List.zipIdx_append]
  simp [cacheRecordCreate]

/-- A step on the uthash table is the step on the list of records. -/
theorem HashedCallStep.callStep
    (hstep : HashedCallStep hashFunction ttl i (sh, head) pc (sh', head') pc')
    (h : HashesRecords hashFunction head sh.content)
    (hnodup : (sh.content.map CacheRecord.name).Nodup) :
    CallStep ttl i sh pc sh' pc' ∧ HashesRecords hashFunction head' sh'.content := by
  cases hstep with
  | miss hmiss => exact ⟨.miss ((h.find hnodup _).symm.trans hmiss), h⟩
  | hit hhit => exact ⟨.hit ((h.find hnodup _).symm.trans hhit), h⟩
  | create hnow => exact ⟨.create hnow, h.create _ _⟩
  | other hfind hcreate hstep =>
      rcases hstep.names with hnames | ⟨key, rfl, -⟩
      · exact ⟨hstep, h.of_names hnames⟩
      · exact absurd rfl (hcreate key)

/-- Each step on the list of records can be made on the uthash table. -/
theorem CallStep.hashedCallStep (hstep : CallStep ttl i sh pc sh' pc')
    (h : HashesRecords hashFunction head sh.content)
    (hnodup : (sh.content.map CacheRecord.name).Nodup) :
    ∃ head', HashedCallStep hashFunction ttl i (sh, head) pc (sh', head') pc' := by
  cases hstep with
  | miss hmiss => exact ⟨head, .miss ((h.find hnodup _).trans hmiss)⟩
  | hit hhit => exact ⟨head, .hit ((h.find hnodup _).trans hhit)⟩
  | create hnow => exact ⟨_, .create hnow⟩
  | lockTable hfree => exact ⟨head, .other nofun nofun (.lockTable hfree)⟩
  | lockRecord hfree => exact ⟨head, .other nofun nofun (.lockRecord hfree)⟩
  | decide hrecord hnow hlater => exact ⟨head, .other nofun nofun (.decide hrecord hnow hlater)⟩
  | unlockRecord => exact ⟨head, .other nofun nofun .unlockRecord⟩
  | unlockTable => exact ⟨head, .other nofun nofun .unlockTable⟩
  | close => exact ⟨head, .other nofun nofun .close⟩
  | closeLock hfree => exact ⟨head, .other nofun nofun (.closeLock hfree)⟩
  | closeUpdate hrecord => exact ⟨head, .other nofun nofun (.closeUpdate hrecord)⟩
  | closeUnlock => exact ⟨head, .other nofun nofun .closeUnlock⟩

/-- The states of the two systems that belong together. -/
def SameCache (hashFunction : List UInt8 → UInt32) (s : HashedCacheState) (t : CacheState) : Prop :=
  s.cache = t ∧ HashesRecords hashFunction s.head t.shared.content

theorem hashedCache_refines :
    (hashedCacheSystem hashFunction ttl md5sum).Refines (cacheSystem ttl md5sum)
      (SameCache hashFunction) := by
  constructor
  · rintro s ⟨hinit, hhead⟩
    refine ⟨s.cache, hinit, rfl, ?_⟩
    rw [hhead, hinit.1]
    exact ⟨headWellFormed_none, rfl⟩
  · rintro s _ a s' - ht ⟨rfl, hrecords⟩ hstep
    cases hstep with
    | tick h => exact ⟨_, .inr ⟨_, .tick h⟩, rfl, hrecords⟩
    | call url => exact ⟨_, .inr ⟨_, .call url⟩, rfl, hrecords⟩
    | advance hpc h =>
        obtain ⟨hcall, hrecords'⟩ := h.callStep hrecords (keysUnique_reachable ht).nodup
        exact ⟨_, .inr ⟨_, .advance hpc hcall⟩, rfl, hrecords'⟩

theorem hashedCache_simulates {s : CacheState} (hs : (cacheSystem ttl md5sum).Reachable s) :
    ∃ head, (hashedCacheSystem hashFunction ttl md5sum).Reachable ⟨s, head⟩ := by
  induction hs with
  | init hinit => exact ⟨none, .init ⟨hinit, rfl⟩⟩
  | step hs hstep ih =>
      obtain ⟨head, hreachable⟩ := ih
      obtain ⟨_, -, rfl, hrecords⟩ := hashedCache_refines.reachable hreachable
      cases hstep with
      | tick h => exact ⟨head, hreachable.step (.tick h)⟩
      | call url => exact ⟨head, hreachable.step (.call url)⟩
      | advance hpc h =>
          obtain ⟨head', hcall⟩ := h.hashedCallStep hrecords (keysUnique_reachable hs).nodup
          exact ⟨head', hreachable.step (.advance hpc hcall)⟩

/-- The cache on the uthash table reaches the states that the cache on the list of records
reaches, and in each of them a lookup finds the record that the list has. -/
theorem hashedCache_reachable_iff (hashFunction : List UInt8 → UInt32) (ttl : ℤ)
    (md5sum : List UInt8 → List UInt8) (s : CacheState) :
    ((cacheSystem ttl md5sum).Reachable s ↔
        ∃ head, (hashedCacheSystem hashFunction ttl md5sum).Reachable ⟨s, head⟩) ∧
      ∀ head, (hashedCacheSystem hashFunction ttl md5sum).Reachable ⟨s, head⟩ →
        ∀ key, hashFindStr hashFunction head key = hashFind s.shared.content key := by
  refine ⟨⟨hashedCache_simulates, ?_⟩, ?_⟩
  · rintro ⟨head, hreachable⟩
    obtain ⟨_, hs, rfl, -⟩ := hashedCache_refines.reachable hreachable
    exact hs
  · intro head hreachable key
    obtain ⟨_, hs, rfl, hrecords⟩ := hashedCache_refines.reachable hreachable
    exact hrecords.find (keysUnique_reachable hs).nodup key

end HttpProxy
