import HttpProxy.CacheRecordRuns
import HttpProxy.Lib.LockOrder
import Mathlib.Algebra.Ring.Nat

/-!
# The cache calls come to their end

`cache_record_get_or_create` takes the mutex of a record while it owns the one of the table, and
nobody who owns a record waits for the table.  So the calls cannot block each other for ever: some
call can always go on, and each goes on for a bounded number of steps.
-/

namespace HttpProxy

open Transition System LockOrder

/-- The mutex of the table and those of the records. -/
inductive CacheLock where
  | table
  | record (r : ℕ)
  deriving DecidableEq

def CacheShared.mutex (sh : CacheShared) : CacheLock → Option ℕ
  | .table => sh.tableMutex
  | .record r => sh.recordMutex r

/-- The lock a call waits for. -/
def CallPc.wants : CallPc → Option CacheLock
  | .lockTable _ => some .table
  | .lockRecord r => some (.record r)
  | .closeLock r _ => some (.record r)
  | _ => none

/-- The calls between taking a lock and releasing it. -/
def CallPc.Owns : CallPc → CacheLock → Prop
  | pc, .table => pc.OwnsTable
  | .decide r, .record r' => r = r'
  | .unlockRecord r _, .record r' => r = r'
  | .closeUpdate r _, .record r' => r = r'
  | .closeUnlock r, .record r' => r = r'
  | _, .record _ => False

/-- The record a call works on. -/
def CallPc.address : CallPc → Option ℕ
  | .lockRecord r => some r
  | .decide r => some r
  | .unlockRecord r _ => some r
  | .unlockTable r _ => some r
  | .granted r _ => some r
  | .closeLock r _ => some r
  | .closeUpdate r _ => some r
  | .closeUnlock r => some r
  | _ => none

/-- How many steps a call has before it at most. -/
def CallPc.remaining : CallPc → ℕ
  | .lockTable _ => 10
  | .find _ => 9
  | .lockRecord _ => 8
  | .decide _ => 7
  | .create _ => 6
  | .unlockRecord _ _ => 6
  | .unlockTable _ _ => 5
  | .granted _ _ => 4
  | .closeLock _ _ => 3
  | .closeUpdate _ _ => 2
  | .closeUnlock _ => 1
  | .closed => 0
  | .refused => 0

variable {ttl : ℤ} {md5sum : List UInt8 → List UInt8} {i j : ℕ} {sh sh' : CacheShared}
  {pc pc' : CallPc} {s s' : CacheState} {lock : CacheLock}

/-- A line that takes or releases the mutex of a record leaves all others alone. -/
theorem mutex_of_update {r : ℕ} {owner : Option ℕ}
    (howner : owner = some i ∧ pc'.Owns (.record r) ∨ owner = none)
    (htable : pc'.Owns .table ↔ pc.Owns .table)
    (hother : ∀ r', r ≠ r' → (pc'.Owns (.record r') ↔ pc.Owns (.record r')))
    (hsh : sh' = { sh with recordMutex := Function.update sh.recordMutex r owner })
    (lock : CacheLock) :
    (sh'.mutex lock = sh.mutex lock ∧ (pc'.Owns lock ↔ pc.Owns lock)) ∨
      (sh'.mutex lock = some i ∧ pc'.Owns lock) ∨ sh'.mutex lock = none := by
  subst hsh
  cases lock with
  | table => exact .inl ⟨rfl, htable⟩
  | record r' =>
      by_cases hr : r' = r
      · subst hr
        have hupdated : Function.update sh.recordMutex r' owner r' = owner :=
          Function.update_self ..
        refine .inr (howner.imp (fun htaken ↦ ⟨?_, htaken.2⟩) fun hfreed ↦ ?_)
        · exact hupdated.trans htaken.1
        · exact hupdated.trans hfreed
      · exact .inl ⟨Function.update_of_ne hr .., hother r' (Ne.symm hr)⟩

/-- What a step does to the owner of a lock: nothing, or the call takes or releases it. -/
theorem CallStep.mutex (h : CallStep ttl i sh pc sh' pc') (lock : CacheLock) :
    (sh'.mutex lock = sh.mutex lock ∧ (pc'.Owns lock ↔ pc.Owns lock)) ∨
      (sh'.mutex lock = some i ∧ pc'.Owns lock) ∨ sh'.mutex lock = none := by
  cases h with
  | lockTable hfree =>
      cases lock with
      | table => exact .inr (.inl ⟨rfl, trivial⟩)
      | record r => exact .inl ⟨rfl, Iff.rfl⟩
  | unlockTable =>
      cases lock with
      | table => exact .inr (.inr rfl)
      | record r => exact .inl ⟨rfl, Iff.rfl⟩
  | lockRecord =>
      refine mutex_of_update (.inl ⟨rfl, ?_⟩) ?_ (fun r' hr ↦ ?_) rfl lock
      · rfl
      · exact Iff.rfl
      · exact iff_of_false hr id
  | unlockRecord =>
      refine mutex_of_update (.inr rfl) ?_ (fun r' hr ↦ ?_) rfl lock
      · exact Iff.rfl
      · exact iff_of_false id hr
  | closeLock =>
      refine mutex_of_update (.inl ⟨rfl, ?_⟩) ?_ (fun r' hr ↦ ?_) rfl lock
      · rfl
      · exact Iff.rfl
      · exact iff_of_false hr id
  | closeUnlock =>
      refine mutex_of_update (.inr rfl) ?_ (fun r' hr ↦ ?_) rfl lock
      · exact Iff.rfl
      · exact iff_of_false id hr
  | _ => cases lock <;> exact .inl ⟨rfl, Iff.rfl⟩

/-- A step stays with its record, or finds or creates one that is in the table. -/
theorem CallStep.address (h : CallStep ttl i sh pc sh' pc') :
    sh.content.length ≤ sh'.content.length ∧
      ∀ r, pc'.address = some r → pc.address = some r ∨ r < sh'.content.length := by
  cases h with
  | hit h =>
      refine ⟨Nat.le_refl _, fun r hr ↦ .inr ?_⟩
      obtain rfl := Option.some.inj hr
      obtain ⟨hlt, -⟩ := List.findIdx?_eq_some_iff_getElem.mp h
      exact hlt
  | create =>
      refine ⟨by simp, fun r hr ↦ .inr ?_⟩
      obtain rfl := Option.some.inj hr
      simp
  | decide => exact ⟨by simp, fun r hr ↦ .inl hr⟩
  | closeUpdate => exact ⟨by simp, fun r hr ↦ .inl hr⟩
  | closeUnlock => exact ⟨Nat.le_refl _, nofun⟩
  | _ => exact ⟨Nat.le_refl _, fun r hr ↦ .inl hr⟩

theorem CallStep.remaining (h : CallStep ttl i sh pc sh' pc') : pc'.remaining < pc.remaining := by
  cases h <;> simp [CallPc.remaining]

/-- Every lock that is taken is owned by a call that is inside, and every call works on a record
of the table. -/
structure LocksHeld (s : CacheState) : Prop where
  owner : ∀ lock i, s.shared.mutex lock = some i → ∃ pc, s.calls[i]? = some pc ∧ pc.Owns lock
  address : ∀ (i : ℕ) (pc : CallPc) (r : ℕ), s.calls[i]? = some pc → pc.address = some r →
    r < s.shared.content.length

theorem enterCall_address (url : List UInt8) : (enterCall md5sum url).address = none := by
  unfold enterCall
  split <;> rfl

theorem LocksHeld.advance (hs : LocksHeld s) (hpc : s.calls[i]? = some pc)
    (h : CallStep ttl i s.shared pc sh' pc') : LocksHeld ⟨sh', s.calls.set i pc'⟩ := by
  obtain ⟨hlength, haddress⟩ := h.address
  refine ⟨fun lock j hj ↦ ?_, fun j q r hq hr ↦ ?_⟩
  · rcases h.mutex lock with ⟨hsame, howns⟩ | ⟨htaken, howns⟩ | hfree
    · obtain ⟨q, hq, hqowns⟩ := hs.owner lock j (hsame.symm.trans hj)
      by_cases hij : i = j
      · subst hij
        obtain rfl : pc = q := Option.some.inj (hpc.symm.trans hq)
        exact ⟨pc', getElem?_set_here hpc pc', howns.mpr hqowns⟩
      · exact ⟨q, by rwa [List.getElem?_set_ne hij], hqowns⟩
    · obtain rfl : i = j := Option.some.inj (htaken.symm.trans hj)
      exact ⟨pc', getElem?_set_here hpc pc', howns⟩
    · simp [hfree] at hj
  · by_cases hij : i = j
    · subst hij
      obtain rfl : pc' = q := by simpa [getElem?_set_here hpc _] using hq
      rcases haddress r hr with hold | hnew
      · exact Nat.lt_of_lt_of_le (hs.address i pc r hpc hold) hlength
      · exact hnew
    · rw [List.getElem?_set_ne hij] at hq
      exact Nat.lt_of_lt_of_le (hs.address j q r hq hr) hlength

theorem locksHeld_reachable (hs : (cacheSystem ttl md5sum).Reachable s) : LocksHeld s := by
  refine System.reachable_induction (I := LocksHeld) ?_ ?_ hs
  · rintro s ⟨-, htable, hrecord, hcalls⟩
    refine ⟨fun lock i hi ↦ ?_, fun i pc r hpc ↦ by simp [hcalls] at hpc⟩
    cases lock with
    | table => simp [CacheShared.mutex, htable] at hi
    | record r => simp [CacheShared.mutex, hrecord] at hi
  · intro s a s' ih h
    cases h with
    | tick => exact ⟨ih.owner, ih.address⟩
    | call url =>
        refine ⟨fun lock i hi ↦ ?_, fun i pc r hpc hr ↦ ?_⟩
        · obtain ⟨pc, hpc, howns⟩ := ih.owner lock i hi
          obtain ⟨hlt, -⟩ := List.getElem?_eq_some_iff.mp hpc
          exact ⟨pc, by rwa [List.getElem?_append_left hlt], howns⟩
        · rcases getElem?_append_new hpc with hold | rfl
          · exact ih.address i pc r hold hr
          · simp [enterCall_address] at hr
    | advance hpc h => exact ih.advance hpc h

/-! ## Some call can go on -/

/-- What the calls wait for, and who owns it. -/
def CacheState.locks (s : CacheState) : Locks ℕ CacheLock where
  waits i := s.calls[i]?.bind CallPc.wants
  owner := s.shared.mutex

/-- The table comes before the records. -/
def CacheLock.rank : CacheLock → ℕ
  | .table => 0
  | .record _ => 1

theorem LocksHeld.ordered (hs : LocksHeld s) : s.locks.Ordered CacheLock.rank := by
  intro lock i hi next hnext
  obtain ⟨pc, hpc, howns⟩ := hs.owner lock i hi
  simp only [CacheState.locks, hpc, Option.bind_some] at hnext
  cases pc with
  | lockTable key =>
      cases lock with
      | table => exact howns.elim
      | record r => exact howns.elim
  | lockRecord r =>
      obtain rfl := Option.some.inj hnext
      cases lock with
      | table => exact Nat.one_pos
      | record r => exact howns.elim
  | closeLock r status =>
      cases lock with
      | table => exact howns.elim
      | record r => exact howns.elim
  | _ => simp [CallPc.wants] at hnext

/-- A call that waits for no lock that is taken can make its next step. -/
theorem LocksHeld.exists_step (hs : LocksHeld s) (hpc : s.calls[i]? = some pc)
    (hunblocked : s.locks.Unblocked i) (hremaining : pc.remaining ≠ 0) :
    ∃ sh' pc', CallStep ttl i s.shared pc sh' pc' := by
  have hfree : ∀ lock, pc.wants = some lock → s.shared.mutex lock = none := fun lock hlock ↦
    hunblocked lock (by simp [CacheState.locks, hpc, hlock])
  have hrecord : ∀ r, pc.address = some r → ∃ record, s.shared.content[r]? = some record :=
    fun r hr ↦ ⟨_, List.getElem?_eq_getElem (hs.address i pc r hpc hr)⟩
  cases pc with
  | lockTable key => exact ⟨_, _, .lockTable (hfree .table rfl)⟩
  | find key =>
      cases hfind : hashFind s.shared.content key with
      | none => exact ⟨_, _, .miss hfind⟩
      | some r => exact ⟨_, _, .hit hfind⟩
  | create key => exact ⟨_, _, .create (Int.le_refl _)⟩
  | lockRecord r => exact ⟨_, _, .lockRecord (hfree (.record r) rfl)⟩
  | decide r =>
      obtain ⟨record, hget⟩ := hrecord r rfl
      exact ⟨_, _, .decide hget (Int.le_refl _) (Int.le_refl _)⟩
  | unlockRecord r status => exact ⟨_, _, .unlockRecord⟩
  | unlockTable r status => exact ⟨_, _, .unlockTable⟩
  | granted r status => exact ⟨_, _, .close⟩
  | closeLock r status => exact ⟨_, _, .closeLock (hfree (.record r) rfl)⟩
  | closeUpdate r status =>
      obtain ⟨record, hget⟩ := hrecord r rfl
      exact ⟨_, _, .closeUpdate hget⟩
  | closeUnlock r => exact ⟨_, _, .closeUnlock⟩
  | closed => exact absurd rfl hremaining
  | refused => exact absurd rfl hremaining

/-- A call that owns a lock is not over. -/
theorem CallPc.Owns.remaining (h : pc.Owns lock) : pc.remaining ≠ 0 := by
  cases pc with
  | closed => cases lock <;> exact h.elim
  | refused => cases lock <;> exact h.elim
  | _ => simp [CallPc.remaining]

/-- A call that is followed from blocked call to owner is not over either. -/
theorem LocksHeld.unfinished_of_blockedBy (hs : LocksHeld s)
    (hpath : Relation.ReflTransGen s.locks.BlockedBy i j) (hpc : s.calls[i]? = some pc)
    (hremaining : pc.remaining ≠ 0) : ∃ q, s.calls[j]? = some q ∧ q.remaining ≠ 0 := by
  induction hpath with
  | refl => exact ⟨pc, hpc, hremaining⟩
  | tail _ hblocked _ =>
      obtain ⟨lock, -, howner⟩ := hblocked
      obtain ⟨q, hq, howns⟩ := hs.owner lock _ howner
      exact ⟨q, hq, howns.remaining⟩

/-! ## All calls come to their end -/

/-- The steps that all calls together have before them at most. -/
def CacheState.remaining (s : CacheState) : ℕ := (s.calls.map CallPc.remaining).sum

/-- The cache while nothing but the calls that are there goes on. -/
def cacheCalls (ttl : ℤ) (md5sum : List UInt8 → List UInt8) : System CacheState CacheLabel :=
  (cacheSystem ttl md5sum).guarded fun _ label ↦ ∃ i, label = .advance i

theorem sum_remaining_set {calls : List CallPc} (hpc : calls[i]? = some pc)
    (h : pc'.remaining < pc.remaining) :
    ((calls.set i pc').map CallPc.remaining).sum < (calls.map CallPc.remaining).sum := by
  induction calls generalizing i with
  | nil => simp at hpc
  | cons q calls ih =>
      cases i with
      | zero =>
          obtain rfl : q = pc := Option.some.inj hpc
          simpa using h
      | succ i => simpa using ih (by simpa using hpc)

theorem remaining_lt_of_step {a : CacheLabel} (h : (cacheCalls ttl md5sum).Step s a s') :
    s'.remaining < s.remaining := by
  obtain ⟨⟨i, rfl⟩, h⟩ := h
  cases h with
  | advance hpc h => exact sum_remaining_set hpc h.remaining

/-- While a call is not over, some call can go on: nobody is blocked for ever. -/
theorem cacheCalls_progress (hs : LocksHeld s) (hremaining : s.remaining ≠ 0) :
    ∃ a s', (cacheCalls ttl md5sum).Step s a s' := by
  obtain ⟨pc, hmem, hpc⟩ : ∃ pc ∈ s.calls, pc.remaining ≠ 0 := by
    by_contra hnone
    push Not at hnone
    apply hremaining
    rw [CacheState.remaining, List.sum_eq_zero_iff_forall_eq_nat]
    simpa using hnone
  obtain ⟨i, hi⟩ := List.mem_iff_getElem?.mp hmem
  have hbound : ∀ lock : CacheLock, lock.rank < 2 := by
    intro lock
    cases lock <;> simp [CacheLock.rank]
  obtain ⟨j, hpath, hunblocked⟩ := hs.ordered.exists_unblocked hbound i
  obtain ⟨q, hq, hqremaining⟩ := hs.unfinished_of_blockedBy hpath hi hpc
  obtain ⟨sh', q', hstep⟩ : ∃ sh' q', CallStep ttl j s.shared q sh' q' :=
    hs.exists_step hq hunblocked hqremaining
  exact ⟨.advance j, _, ⟨j, rfl⟩, .advance hq hstep⟩

/-- In every reachable state: as long as some call is not over, some call can make a step; the
calls that are there make a bounded number of steps, however they interleave; and they can all be
brought to their end. -/
theorem cacheCalls_come_to_end (hs : (cacheSystem ttl md5sum).Reachable s) :
    (s.remaining ≠ 0 → ∃ a s', (cacheCalls ttl md5sum).Step s a s') ∧
      (∀ as t, (cacheCalls ttl md5sum).Run s as t → as.length ≤ s.remaining) ∧
      ∃ as t, (cacheCalls ttl md5sum).Run s as t ∧
        ∀ pc ∈ t.calls, pc = .closed ∨ pc = .refused := by
  refine ⟨cacheCalls_progress (locksHeld_reachable hs), fun as t hrun ↦ ?_, ?_⟩
  · have hle := hrun.length_add_le fun _ _ _ ↦ remaining_lt_of_step
    omega
  · obtain ⟨as, t, hrun, -, hdone⟩ : ∃ as t, (cacheCalls ttl md5sum).Run s as t ∧
        (cacheSystem ttl md5sum).Reachable t ∧ t.remaining = 0 :=
      exists_run_done (fun _ _ _ ↦ remaining_lt_of_step) (fun _ _ _ hu h ↦ Reachable.step hu h.2)
        (fun _ hu hne ↦ cacheCalls_progress (locksHeld_reachable hu) hne) hs
    refine ⟨as, t, hrun, fun pc hpc ↦ ?_⟩
    have hzero : pc.remaining = 0 :=
      List.sum_eq_zero_iff_forall_eq_nat.mp hdone _ (List.mem_map_of_mem hpc)
    cases pc with
    | closed => exact .inl rfl
    | refused => exact .inr rfl
    | _ => simp [CallPc.remaining] at hzero

theorem cacheCalls_come_to_end_firstLookup :
    ∃ as t, (cacheCalls 10 id).Run firstLookup as t ∧
      ∀ pc ∈ t.calls, pc = .closed ∨ pc = .refused :=
  (cacheCalls_come_to_end firstLookup_reachable).2.2

end HttpProxy
