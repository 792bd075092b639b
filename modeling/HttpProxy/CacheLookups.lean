import HttpProxy.CacheRecordRuns

/-!
# Which record a lookup comes to

The runs of the cache table with a log of the urls that were looked up and of the records they
came to.  Two lookups come to the same record if and only if their urls have the same hash.
-/

namespace HttpProxy

open Transition

variable {ttl : ℤ} {md5sum : List UInt8 → List UInt8} {s : CacheState} {sh sh' : CacheShared}
  {pc pc' : CallPc} {i j r r₁ r₂ : ℕ} {url url₁ url₂ : List UInt8}

/-- Call `i` was made for a url, and it came to a record. -/
inductive LookupEvent where
  | entered (i : ℕ) (url : List UInt8)
  | found (i r : ℕ)
  deriving DecidableEq, Repr

variable {log : List LookupEvent}

/-- The key a call has not looked up yet. -/
def CallPc.key : CallPc → Option (List UInt8)
  | .lockTable key => some key
  | .find key => some key
  | .create key => some key
  | _ => none

/-- What the step of call `i` from one line to another adds to the log. -/
def foundEvents (i : ℕ) : CallPc → CallPc → List LookupEvent
  | .find _, .lockRecord r => [.found i r]
  | .create _, .unlockTable r _ => [.found i r]
  | _, _ => []

def lookupEvents (s : CacheState) (label : CacheLabel) (s' : CacheState) : List LookupEvent :=
  match label with
  | .tick _ => []
  | .call url => [.entered s.calls.length url]
  | .advance i =>
      match s.calls[i]?, s'.calls[i]? with
      | some pc, some pc' => foundEvents i pc pc'
      | _, _ => []

/-- The runs of the table with the log of their lookups. -/
def lookupHistory (ttl : ℤ) (md5sum : List UInt8 → List UInt8) :
    System (CacheState × List LookupEvent) CacheLabel :=
  (cacheSystem ttl md5sum).logged lookupEvents

def CacheShared.names (sh : CacheShared) : List (List UInt8) := sh.content.map CacheRecord.name

/-- All that a step of call `i` can do to the names, to the key of the call and to the log. -/
inductive LookupChange (i : ℕ) (sh sh' : CacheShared) (pc pc' : CallPc) :
    List LookupEvent → Prop
  | keep (hnames : sh'.names = sh.names) (hkey : pc'.key = pc.key) :
      LookupChange i sh sh' pc pc' []
  | found (key : List UInt8) (r : ℕ) (hnames : sh.names <+: sh'.names) (hpc : pc.key = some key)
      (hkey : pc'.key = none) (hname : sh'.names[r]? = some key) :
      LookupChange i sh sh' pc pc' [.found i r]

theorem hashFind_some {content : CacheTable} {key : List UInt8}
    (h : hashFind content key = some r) :
    (content.map CacheRecord.name)[r]? = some key := by
  obtain ⟨hr, hname, -⟩ := List.findIdx?_eq_some_iff_getElem.mp h
  rw [List.getElem?_map, List.getElem?_eq_getElem hr]
  simpa using hname

theorem CallStep.lookupChange (h : CallStep ttl i sh pc sh' pc') :
    LookupChange i sh sh' pc pc' (foundEvents i pc pc') := by
  cases h with
  | hit hfind => exact .found _ _ List.prefix_rfl rfl rfl (hashFind_some hfind)
  | create =>
      refine .found _ _ ?_ rfl rfl ?_
      · simp [CacheShared.names]
      · simp [CacheShared.names, cacheRecordCreate]
  | decide hrecord => exact .keep (map_name_set hrecord (cacheRecordDecide_name ..)) rfl
  | closeUpdate hrecord => exact .keep (map_name_set hrecord (cacheRecordUpdate_name ..)) rfl
  | _ => exact .keep rfl rfl

/-! ## The log and the table -/

/-- Every call is logged with its url, and the record it came to has the hash of the url for
its name. -/
structure LookupsLogged (md5sum : List UInt8 → List UInt8) (s : CacheState)
    (log : List LookupEvent) : Prop where
  entered : ∀ i url, .entered i url ∈ log → i < s.calls.length
  unique : ∀ i url url', .entered i url ∈ log → .entered i url' ∈ log → url = url'
  key : ∀ (i : ℕ) (pc : CallPc) (key : List UInt8), s.calls[i]? = some pc → pc.key = some key →
    ∃ url, .entered i url ∈ log ∧ key = md5sum url
  found : ∀ i r, .found i r ∈ log → ∃ url, .entered i url ∈ log ∧
    s.shared.names[r]? = some (md5sum url)

theorem enterCall_key {key : List UInt8} (h : (enterCall md5sum url).key = some key) :
    key = md5sum url := by
  unfold enterCall at h
  split at h
  · cases h
  · exact (Option.some.inj h).symm

theorem LookupsLogged.enter (hs : LookupsLogged md5sum s log) (url : List UInt8) :
    LookupsLogged md5sum { s with calls := s.calls ++ [enterCall md5sum url] }
      (log ++ [.entered s.calls.length url]) := by
  have hnew {i : ℕ} {url' : List UInt8}
      (h : .entered i url' ∈ log ++ [LookupEvent.entered s.calls.length url]) :
      .entered i url' ∈ log ∨ i = s.calls.length ∧ url' = url := by
    simpa using h
  refine ⟨fun i url' h ↦ ?_, fun i url₁ url₂ h₁ h₂ ↦ ?_, fun i pc key hpc hkey ↦ ?_,
    fun i r h ↦ ?_⟩
  · rw [List.length_append, List.length_singleton]
    rcases hnew h with hold | ⟨rfl, -⟩
    · have := hs.entered i url' hold
      omega
    · omega
  · rcases hnew h₁ with hold₁ | ⟨rfl, rfl⟩
    · rcases hnew h₂ with hold₂ | ⟨rfl, -⟩
      · exact hs.unique i _ _ hold₁ hold₂
      · exact absurd (hs.entered _ _ hold₁) (Nat.lt_irrefl _)
    · rcases hnew h₂ with hold₂ | ⟨-, rfl⟩
      · exact absurd (hs.entered _ _ hold₂) (Nat.lt_irrefl _)
      · rfl
  · rcases Nat.lt_trichotomy i s.calls.length with hlt | rfl | hgt
    · rw [List.getElem?_append_left hlt] at hpc
      obtain ⟨url', hmem, hurl⟩ := hs.key i pc key hpc hkey
      exact ⟨url', List.mem_append_left _ hmem, hurl⟩
    · rw [List.getElem?_concat_length, Option.some_inj] at hpc
      subst hpc
      exact ⟨url, by simp, enterCall_key hkey⟩
    · rw [List.getElem?_eq_none (by simp; omega)] at hpc
      cases hpc
  · obtain ⟨url', hmem, hname⟩ := hs.found i r (by simpa using h)
    exact ⟨url', List.mem_append_left _ hmem, hname⟩

theorem LookupsLogged.advance (hs : LookupsLogged md5sum s log) (hpc : s.calls[i]? = some pc)
    {events : List LookupEvent} (h : LookupChange i s.shared sh' pc pc' events) :
    LookupsLogged md5sum ⟨sh', s.calls.set i pc'⟩ (log ++ events) := by
  have hkeep {j : ℕ} {q : CallPc} (hq : (s.calls.set i pc')[j]? = some q) :
      q = pc' ∧ j = i ∨ s.calls[j]? = some q := by
    rcases eq_or_ne j i with rfl | hji
    · rw [getElem?_set_here hpc, Option.some_inj] at hq
      exact .inl ⟨hq.symm, rfl⟩
    · rw [List.getElem?_set_ne (Ne.symm hji)] at hq
      exact .inr hq
  cases h with
  | keep hnames hkey =>
      rw [List.append_nil]
      refine ⟨?_, hs.unique, fun j q key hq hqkey ↦ ?_, fun j r hfound ↦ ?_⟩
      · simpa using hs.entered
      · rcases hkeep hq with ⟨rfl, rfl⟩ | hold
        · exact hs.key j pc key hpc (hkey ▸ hqkey)
        · exact hs.key j q key hold hqkey
      · rw [hnames]
        exact hs.found j r hfound
  | found key r hnames hpckey hkey hname =>
      have hlog {j : ℕ} {url : List UInt8} :
          .entered j url ∈ log ++ [LookupEvent.found i r] ↔ .entered j url ∈ log := by simp
      refine ⟨?_, ?_, fun j q key' hq hqkey ↦ ?_, fun j r' hfound ↦ ?_⟩
      · simpa using hs.entered
      · simpa only [hlog] using hs.unique
      · simp only [hlog]
        rcases hkeep hq with ⟨rfl, -⟩ | hold
        · simp [hkey] at hqkey
        · exact hs.key j q key' hold hqkey
      · simp only [hlog]
        rcases List.mem_append.mp hfound with hold | hnew
        · obtain ⟨url, hmem, hurl⟩ := hs.found j r' hold
          obtain ⟨new, hnew⟩ := hnames
          obtain ⟨hlt, -⟩ := List.getElem?_eq_some_iff.mp hurl
          have hname' : sh'.names[r']? = some (md5sum url) := by
            rw [← hnew, List.getElem?_append_left hlt, hurl]
          exact ⟨url, hmem, hname'⟩
        · obtain ⟨rfl, rfl⟩ : j = i ∧ r' = r := by simpa using hnew
          obtain ⟨url, hmem, rfl⟩ := hs.key j pc key hpc hpckey
          exact ⟨url, hmem, hname⟩

theorem lookupsLogged_reachable (hs : (lookupHistory ttl md5sum).Reachable (s, log)) :
    LookupsLogged md5sum s log := by
  generalize hp : (s, log) = p at hs
  induction hs generalizing s log with
  | init h =>
      subst hp
      obtain ⟨⟨-, -, -, hcalls⟩, hlog⟩ := h
      simp only at hcalls hlog
      subst hlog
      exact ⟨by simp, by simp, by simp [hcalls], by simp⟩
  | @step p p' label _ h ih =>
      subst hp
      obtain ⟨hstep, hlog⟩ := h
      simp only at hstep hlog
      subst hlog
      have hs := ih rfl
      cases hstep with
      | tick =>
          rw [lookupEvents, List.append_nil]
          exact ⟨hs.entered, hs.unique, hs.key, hs.found⟩
      | call url => exact hs.enter url
      | @advance i pc pc' sh' hpc h =>
          have hevents : lookupEvents p.1 (.advance i) ⟨sh', p.1.calls.set i pc'⟩ =
              foundEvents i pc pc' := by
            rw [lookupEvents]
            simp only [hpc, getElem?_set_here hpc]
          rw [hevents]
          exact hs.advance hpc h.lookupChange

/-- Two lookups come to one record if and only if their urls have one hash. -/
theorem found_eq_iff (hs : (lookupHistory ttl md5sum).Reachable (s, log))
    (hentered₁ : .entered i url₁ ∈ log) (hfound₁ : .found i r₁ ∈ log)
    (hentered₂ : .entered j url₂ ∈ log) (hfound₂ : .found j r₂ ∈ log) :
    r₁ = r₂ ↔ md5sum url₁ = md5sum url₂ := by
  have hlogged := lookupsLogged_reachable hs
  have hnodup : s.shared.names.Nodup := (keysUnique_reachable hs.of_logged).nodup
  obtain ⟨url, hurl, hname₁⟩ := hlogged.found i r₁ hfound₁
  obtain rfl := hlogged.unique i _ _ hentered₁ hurl
  obtain ⟨url, hurl, hname₂⟩ := hlogged.found j r₂ hfound₂
  obtain rfl := hlogged.unique j _ _ hentered₂ hurl
  constructor
  · rintro rfl
    exact Option.some.inj (hname₁.symm.trans hname₂)
  · intro hhash
    rw [← hhash, ← hname₁] at hname₂
    obtain ⟨hlt, -⟩ := List.getElem?_eq_some_iff.mp hname₁
    exact (List.getElem?_inj hlt hnodup).mp hname₂.symm

end HttpProxy
