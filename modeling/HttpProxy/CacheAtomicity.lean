import HttpProxy.CacheFreshness
import HttpProxy.CacheLookups
import HttpProxy.HashedCacheTable
import Mathlib.Data.List.Forall2

/-!
# The calls of the cache as single steps

A cache whose lookups and closes are one step each.  Under their locks, in any interleaving, the
calls of `cache_record_get_or_create` and `cache_record_close` are answered as they are here, in
the order in which they take effect, and every run of single steps can be made under the locks.
-/

namespace HttpProxy

open Transition

/-- Where a call is: it has a key to look up, or a grant to give back, or nothing more to do. -/
inductive AtomicPc where
  | asked (key : List UInt8)
  | granted (r : ℕ) (status : ActionStatus)
  | closed
  | refused
  deriving DecidableEq, Repr

structure AtomicCache where
  content : CacheTable
  clock : ℤ
  calls : List AtomicPc

variable {ttl : ℤ} {md5sum : List UInt8 → List UInt8} {s s' : CacheState} {t t' : AtomicCache}
  {sh sh' : CacheShared} {pc pc' : CallPc} {apc apc' : AtomicPc} {i r : ℕ} {key : List UInt8}
  {status : ActionStatus} {record : CacheRecord} {label : CacheLabel} {log : List CallEvent}
  {content content' : CacheTable}

def askCache (md5sum : List UInt8 → List UInt8) (url : List UInt8) : AtomicPc :=
  if url.length > urlMaxLength then .refused else .asked (md5sum url)

inductive AtomicStep (ttl : ℤ) (md5sum : List UInt8 → List UInt8) :
    AtomicCache → CacheLabel → AtomicCache → Prop
  | tick {t : AtomicCache} {now : ℤ} (h : t.clock ≤ now) :
      AtomicStep ttl md5sum t (.tick now) { t with clock := now }
  | call {t : AtomicCache} (url : List UInt8) :
      AtomicStep ttl md5sum t (.call url) { t with calls := t.calls ++ [askCache md5sum url] }
  | create {t : AtomicCache} {i : ℕ} {key : List UInt8} {now : ℤ}
      (hpc : t.calls[i]? = some (.asked key)) (hfind : hashFind t.content key = none)
      (hnow : t.clock ≤ now) :
      AtomicStep ttl md5sum t (.advance i)
        ⟨t.content ++ [cacheRecordCreate ttl key now], now,
          t.calls.set i (.granted t.content.length .shouldWrite)⟩
  | decide {t : AtomicCache} {i r : ℕ} {key : List UInt8} {record : CacheRecord} {now later : ℤ}
      (hpc : t.calls[i]? = some (.asked key)) (hfind : hashFind t.content key = some r)
      (hrecord : t.content[r]? = some record) (hnow : t.clock ≤ now) (hlater : now ≤ later) :
      AtomicStep ttl md5sum t (.advance i)
        ⟨t.content.set r (cacheRecordDecide ttl record now later).2, later,
          t.calls.set i (.granted r (cacheRecordDecide ttl record now later).1)⟩
  | close {t : AtomicCache} {i r : ℕ} {status : ActionStatus} {record : CacheRecord}
      (hpc : t.calls[i]? = some (.granted r status)) (hrecord : t.content[r]? = some record) :
      AtomicStep ttl md5sum t (.advance i)
        ⟨t.content.set r (cacheRecordUpdate record status), t.clock, t.calls.set i .closed⟩

def atomicSystem (ttl : ℤ) (md5sum : List UInt8 → List UInt8) : System AtomicCache CacheLabel where
  Init t := t.content = [] ∧ t.calls = []
  Step := AtomicStep ttl md5sum

def answerEvents (i : ℕ) (t' : AtomicCache) : AtomicPc → AtomicPc → List CacheEvent
  | .asked key, .granted _ status => [.answered i key status t'.clock]
  | .granted _ _, .closed => [.closed i]
  | _, _ => []

def atomicEvents (t : AtomicCache) (label : CacheLabel) (t' : AtomicCache) : List CacheEvent :=
  match label with
  | .advance i =>
      match t.calls[i]?, t'.calls[i]? with
      | some apc, some apc' => answerEvents i t' apc apc'
      | _, _ => []
  | _ => []

/-- A call was made for a url, or a call decided or closed. -/
inductive CallEvent where
  | made (url : List UInt8)
  | did (event : CacheEvent)
  deriving DecidableEq, Repr

def traceEvents (events : List CacheEvent) : CacheLabel → List CallEvent
  | .call url => [.made url]
  | _ => events.map .did

def atomicTrace (ttl : ℤ) (md5sum : List UInt8 → List UInt8) :
    System (AtomicCache × List CallEvent) CacheLabel :=
  (atomicSystem ttl md5sum).logged fun t label t' ↦ traceEvents (atomicEvents t label t') label

/-- The runs under the locks with the log of the calls as they were made and answered. -/
def cacheTrace (ttl : ℤ) (md5sum : List UInt8 → List UInt8) :
    System (CacheState × List CallEvent) CacheLabel :=
  (cacheSystem ttl md5sum).logged fun s label s' ↦ traceEvents (cacheEvents s label s') label

/-! ## The calls of the two systems -/

/-- A call asks until it has decided, and has its grant until it has taken it off the record. -/
inductive SameCall (content : CacheTable) : CallPc → AtomicPc → Prop
  | lockTable (key : List UInt8) : SameCall content (.lockTable key) (.asked key)
  | find (key : List UInt8) : SameCall content (.find key) (.asked key)
  | create (key : List UInt8) : SameCall content (.create key) (.asked key)
  | lockRecord {r : ℕ} {key : List UInt8}
      (hname : (content.map CacheRecord.name)[r]? = some key) :
      SameCall content (.lockRecord r) (.asked key)
  | decide {r : ℕ} {key : List UInt8} (hname : (content.map CacheRecord.name)[r]? = some key) :
      SameCall content (.decide r) (.asked key)
  | unlockRecord (r : ℕ) (status : ActionStatus) :
      SameCall content (.unlockRecord r status) (.granted r status)
  | unlockTable (r : ℕ) (status : ActionStatus) :
      SameCall content (.unlockTable r status) (.granted r status)
  | granted (r : ℕ) (status : ActionStatus) :
      SameCall content (.granted r status) (.granted r status)
  | closeLock (r : ℕ) (status : ActionStatus) :
      SameCall content (.closeLock r status) (.granted r status)
  | closeUpdate (r : ℕ) (status : ActionStatus) :
      SameCall content (.closeUpdate r status) (.granted r status)
  | closeUnlock (r : ℕ) : SameCall content (.closeUnlock r) .closed
  | closed : SameCall content .closed .closed
  | refused : SameCall content .refused .refused

structure SameCalls (s : CacheState) (t : AtomicCache) : Prop where
  content : t.content = s.shared.content
  clock : t.clock = s.shared.clock
  calls : s.calls.Forall₂ (SameCall s.shared.content) t.calls

theorem SameCall.mono (h : SameCall content pc apc)
    (hnames : content.map CacheRecord.name <+: content'.map CacheRecord.name) :
    SameCall content' pc apc := by
  have hmore {r : ℕ} {key : List UInt8}
      (hname : (content.map CacheRecord.name)[r]? = some key) :
      (content'.map CacheRecord.name)[r]? = some key := by
    obtain ⟨more, hmore⟩ := hnames
    rw [← hmore, List.getElem?_append_left (List.getElem?_eq_some_iff.mp hname).1, hname]
  cases h with
  | lockRecord hname => exact .lockRecord (hmore hname)
  | decide hname => exact .decide (hmore hname)
  | _ => constructor

/-! ## Lists of calls -/

section

variable {α β : Type} {R R' : α → β → Prop} {l : List α} {l' : List β} {a : α} {b : β}

theorem forall₂_getElem? (h : l.Forall₂ R l') (hi : l[i]? = some a) :
    ∃ b, l'[i]? = some b ∧ R a b := by
  induction h generalizing i with
  | nil => cases hi
  | @cons a' b' l l' hab _ ih =>
      cases i with
      | zero =>
          obtain rfl : a' = a := Option.some.inj hi
          exact ⟨b', rfl, hab⟩
      | succ i => exact ih hi

theorem forall₂_set (h : l.Forall₂ R l') (hab : R a b) (i : ℕ) :
    (l.set i a).Forall₂ R (l'.set i b) := by
  induction h generalizing i with
  | nil => exact .nil
  | cons hab' h ih =>
      cases i with
      | zero => exact .cons hab h
      | succ i => exact .cons hab' (ih i)

/-- One side may stand still. -/
theorem forall₂_set_left (h : l.Forall₂ R l') (hi : l'[i]? = some b) (hab : R a b) :
    (l.set i a).Forall₂ R l' := by
  have hset := forall₂_set h hab i
  obtain ⟨hlt, rfl⟩ := List.getElem?_eq_some_iff.mp hi
  rwa [List.set_getElem_self hlt] at hset

end

/-! ## Under the locks and without them -/

theorem callEvents_of_advance (hpc : s.calls[i]? = some pc) :
    cacheEvents s (.advance i) ⟨sh', s.calls.set i pc'⟩ = callEvents i sh' pc pc' := by
  simp [cacheEvents, hpc, getElem?_set_here hpc pc']

theorem answerEvents_of_advance (hpc : t.calls[i]? = some apc) (content : CacheTable) (clock : ℤ) :
    atomicEvents t (.advance i) ⟨content, clock, t.calls.set i apc'⟩ =
      answerEvents i ⟨content, clock, t.calls.set i apc'⟩ apc apc' := by
  simp [atomicEvents, hpc, getElem?_set_here hpc apc']

/-- A step that only moves a call between two lines is none without locks. -/
theorem SameCalls.stay (h : SameCalls s t) (hapc : t.calls[i]? = some apc)
    (hcontent : sh'.content = s.shared.content) (hclock : sh'.clock = s.shared.clock)
    (hcall : SameCall s.shared.content pc' apc) : SameCalls ⟨sh', s.calls.set i pc'⟩ t := by
  refine ⟨h.content.trans hcontent.symm, h.clock.trans hclock.symm, ?_⟩
  rw [hcontent]
  exact forall₂_set_left h.calls hapc hcall

/-- A step that decides or closes is one without locks. -/
theorem SameCalls.move (h : SameCalls s t) {clock : ℤ}
    (hnames : s.shared.content.map CacheRecord.name <+: content.map CacheRecord.name)
    (hcontent : sh'.content = content) (hclock : sh'.clock = clock)
    (hcall : SameCall content pc' apc') :
    SameCalls ⟨sh', s.calls.set i pc'⟩ ⟨content, clock, t.calls.set i apc'⟩ := by
  refine ⟨hcontent.symm, hclock.symm, ?_⟩
  rw [hcontent]
  exact forall₂_set (h.calls.imp fun _ _ hsame ↦ hsame.mono hnames) hcall i

theorem SameCalls.advance (h : SameCalls s t) (md5sum : List UInt8 → List UInt8)
    (hs : KeysUnique s) (hpc : s.calls[i]? = some pc) (hstep : CallStep ttl i s.shared pc sh' pc') :
    SameCalls ⟨sh', s.calls.set i pc'⟩ t ∧ callEvents i sh' pc pc' = [] ∨
      ∃ t', AtomicStep ttl md5sum t (.advance i) t' ∧ SameCalls ⟨sh', s.calls.set i pc'⟩ t' ∧
        atomicEvents t (.advance i) t' = callEvents i sh' pc pc' := by
  obtain ⟨apc, hapc, hsame⟩ := forall₂_getElem? h.calls hpc
  have hclock : t.clock = s.shared.clock := h.clock
  cases hstep with
  | @create key now hnow =>
      obtain rfl : apc = .asked key := by cases hsame; rfl
      have hnone : hashFind t.content key = none := by
        rw [h.content, hashFind, List.findIdx?_eq_none_iff]
        intro record hrecord
        simpa using hs.fresh i key hpc record hrecord
      refine .inr ⟨_, .create hapc hnone (hclock ▸ hnow), ?_, ?_⟩
      · rw [h.content]
        exact h.move (by simp) rfl rfl (.unlockTable ..)
      · rw [answerEvents_of_advance hapc]
        rfl
  | @decide r record now later hrecord hnow hlater =>
      have hname : (s.shared.content.map CacheRecord.name)[r]? = some record.name := by
        rw [List.getElem?_map, hrecord, Option.map_some]
      obtain rfl : apc = .asked record.name := by
        cases hsame with
        | decide hname' => rw [Option.some.inj (hname.symm.trans hname')]
      have hfind : hashFind t.content record.name = some r :=
        h.content ▸ hashFind_of_getElem? hs.nodup hname
      refine .inr ⟨_, .decide hapc hfind (h.content ▸ hrecord) (hclock ▸ hnow) hlater,
        ?_, ?_⟩
      · rw [h.content]
        exact h.move (map_name_set hrecord (cacheRecordDecide_name ..) ▸ List.prefix_rfl) rfl rfl
          (.unlockRecord ..)
      · rw [answerEvents_of_advance hapc, callEvents_decide _ (getElem?_set_here hrecord _),
          cacheRecordDecide_name]
        rfl
  | @closeUpdate r status record hrecord =>
      obtain rfl : apc = .granted r status := by cases hsame; rfl
      refine .inr ⟨_, .close hapc (h.content ▸ hrecord), ?_, ?_⟩
      · rw [h.content]
        exact h.move (map_name_set hrecord (cacheRecordUpdate_name ..) ▸ List.prefix_rfl) rfl
          hclock.symm (.closeUnlock ..)
      · rw [answerEvents_of_advance hapc]
        rfl
  | hit hfind =>
      cases hsame with
      | find key => exact .inl ⟨h.stay hapc rfl rfl (.lockRecord (hashFind_some hfind)), rfl⟩
  | lockRecord hfree =>
      cases hsame with
      | lockRecord hname => exact .inl ⟨h.stay hapc rfl rfl (.decide hname), rfl⟩
  | _ =>
      cases hsame
      exact .inl ⟨h.stay hapc rfl rfl (by constructor), rfl⟩

theorem SameCalls.init (h : (cacheSystem ttl md5sum).Init s) :
    SameCalls s ⟨[], s.shared.clock, []⟩ := by
  obtain ⟨hcontent, -, -, hcalls⟩ := h
  exact ⟨hcontent.symm, rfl, hcalls ▸ .nil⟩

theorem SameCall.enter (content : CacheTable) (md5sum : List UInt8 → List UInt8)
    (url : List UInt8) : SameCall content (enterCall md5sum url) (askCache md5sum url) := by
  unfold enterCall askCache
  split
  · exact .refused
  · exact .lockTable _

theorem AtomicStep.logged (h : AtomicStep ttl md5sum t label t') (log : List CallEvent) :
    (atomicTrace ttl md5sum).Step (t, log) label
      (t', log ++ traceEvents (atomicEvents t label t') label) :=
  ⟨h, rfl⟩

/-- Under their locks the calls are answered as they are without them. -/
theorem cacheTrace_refines : (cacheTrace ttl md5sum).Refines (atomicTrace ttl md5sum)
    fun p q ↦ SameCalls p.1 q.1 ∧ q.2 = p.2 where
  init p h := ⟨(_, []), ⟨⟨rfl, rfl⟩, rfl⟩, .init h.1, h.2.symm⟩
  step := by
    rintro ⟨s, log⟩ ⟨t, log'⟩ a ⟨s', log''⟩ hs - ⟨hsame, hlog⟩ ⟨hstep, hlog'⟩
    dsimp only at hs hsame hlog hstep hlog'
    subst hlog' hlog
    cases hstep with
    | tick hnow =>
        have hnow' : t.clock ≤ _ := hsame.clock ▸ hnow
        exact ⟨_, .inr ⟨_, (AtomicStep.tick hnow').logged _⟩,
          ⟨hsame.content, rfl, hsame.calls⟩, rfl⟩
    | call url =>
        refine ⟨_, .inr ⟨_, (AtomicStep.call url).logged _⟩, ⟨hsame.content, hsame.clock, ?_⟩, rfl⟩
        exact List.rel_append hsame.calls (.cons (.enter _ md5sum url) .nil)
    | advance hpc hcall =>
        have hkeys : KeysUnique s := keysUnique_reachable hs.of_logged
        have hadvance := hsame.advance md5sum hkeys hpc hcall
        simp only [callEvents_of_advance hpc]
        rcases hadvance with ⟨hstay, hnone⟩ | ⟨t', hstep', hmove, hevents⟩
        · exact ⟨_, .inl rfl, hstay, by simp [hnone, traceEvents]⟩
        · exact ⟨_, .inr ⟨_, hstep'.logged _⟩, hmove, by rw [hevents]⟩

/-! ## Single steps under the locks -/

/-- The steps that one call takes while the others stand still, and what they log. -/
inductive CallRun (ttl : ℤ) (i : ℕ) (sh : CacheShared) (pc : CallPc) :
    List CacheEvent → CacheShared → CallPc → Prop
  | refl : CallRun ttl i sh pc [] sh pc
  | tail {events : List CacheEvent} {sh' sh'' : CacheShared} {pc' pc'' : CallPc}
      (hrun : CallRun ttl i sh pc events sh' pc') (hstep : CallStep ttl i sh' pc' sh'' pc'') :
      CallRun ttl i sh pc (events ++ callEvents i sh'' pc' pc'') sh'' pc''

variable {events : List CacheEvent}

theorem CallRun.reachable (h : CallRun ttl i s.shared pc events sh' pc')
    (hs : (cacheTrace ttl md5sum).Reachable (s, log)) (hpc : s.calls[i]? = some pc) :
    (cacheTrace ttl md5sum).Reachable (⟨sh', s.calls.set i pc'⟩, log ++ events.map .did) := by
  induction h with
  | refl =>
      obtain ⟨hi, rfl⟩ := List.getElem?_eq_some_iff.mp hpc
      rwa [List.map_nil, List.append_nil, List.set_getElem_self hi]
  | @tail events sh' sh'' pc' pc'' hrun hstep ih =>
      have hpc' : (s.calls.set i pc')[i]? = some pc' := getElem?_set_here hpc pc'
      have hlog := ih.log (.advance hpc' hstep)
      rw [List.map_append, ← List.append_assoc]
      rwa [callEvents_of_advance (s := ⟨sh', _⟩) hpc', List.set_set] at hlog

/-- What the threads share when nobody is inside. -/
def AtomicCache.shared (t : AtomicCache) : CacheShared := ⟨t.content, none, fun _ ↦ none, t.clock⟩

/-- The line at which a call waits for its step. -/
def AtomicPc.line : AtomicPc → CallPc
  | .asked key => .lockTable key
  | .granted r status => .granted r status
  | .closed => .closed
  | .refused => .refused

def AtomicCache.underLocks (t : AtomicCache) : CacheState := ⟨t.shared, t.calls.map AtomicPc.line⟩

section

variable {now later : ℤ}

theorem callRun_create (hfind : hashFind t.content key = none) (hnow : t.clock ≤ now) :
    CallRun ttl i t.shared (.lockTable key) [.answered i key .shouldWrite now]
      ⟨t.content ++ [cacheRecordCreate ttl key now], none, fun _ ↦ none, now⟩
      (.granted t.content.length .shouldWrite) :=
  .tail (.tail (.tail (.tail .refl (.lockTable rfl)) (.miss hfind)) (.create hnow)) .unlockTable

theorem AtomicCache.shared_released (t : AtomicCache) (r i : ℕ) :
    Function.update (Function.update t.shared.recordMutex r (some i)) r none = fun _ ↦ none := by
  rw [Function.update_idem]
  exact Function.update_eq_self r _

/-- A call that finds its key takes both mutexes and gives them back. -/
theorem callRun_decide (hfind : hashFind t.content key = some r)
    (hrecord : t.content[r]? = some record) (hnow : t.clock ≤ now) (hlater : now ≤ later) :
    CallRun ttl i t.shared (.lockTable key)
      [.answered i key (cacheRecordDecide ttl record now later).1 later]
      ⟨t.content.set r (cacheRecordDecide ttl record now later).2, none, fun _ ↦ none, later⟩
      (.granted r (cacheRecordDecide ttl record now later).1) := by
  have hname : record.name = key := by simpa [hrecord] using hashFind_some hfind
  have hlock : CallRun ttl i t.shared (.lockTable key) [] _ (.decide r) :=
    .tail (.tail (.tail .refl (.lockTable rfl)) (.hit hfind)) (.lockRecord rfl)
  have hdecide := ((hlock.tail (.decide hrecord hnow hlater)).tail .unlockRecord).tail .unlockTable
  rw [callEvents_decide _ (getElem?_set_here hrecord _), cacheRecordDecide_name, hname,
    t.shared_released] at hdecide
  exact hdecide

theorem callRun_close (hrecord : t.content[r]? = some record) :
    CallRun ttl i t.shared (.granted r status) [.closed i]
      ⟨t.content.set r (cacheRecordUpdate record status), none, fun _ ↦ none, t.clock⟩ .closed := by
  have hclose : CallRun ttl i t.shared (.granted r status) [.closed i] _ .closed :=
    .tail (.tail (.tail (.tail .refl .close) (.closeLock rfl)) (.closeUpdate hrecord)) .closeUnlock
  rw [t.shared_released] at hclose
  exact hclose

end

theorem askCache_line (md5sum : List UInt8 → List UInt8) (url : List UInt8) :
    (askCache md5sum url).line = enterCall md5sum url := by
  unfold askCache enterCall
  split <;> rfl

theorem underLocks_getElem? (hapc : t.calls[i]? = some apc) :
    t.underLocks.calls[i]? = some apc.line := by
  rw [AtomicCache.underLocks, List.getElem?_map, hapc, Option.map_some]

theorem underLocks_set (t : AtomicCache) (content : CacheTable) (clock : ℤ) (i : ℕ)
    (apc : AtomicPc) :
    AtomicCache.underLocks ⟨content, clock, t.calls.set i apc⟩ =
      ⟨⟨content, none, fun _ ↦ none, clock⟩, t.underLocks.calls.set i apc.line⟩ := by
  simp [AtomicCache.underLocks, AtomicCache.shared, List.map_set]

theorem underLocks_call (t : AtomicCache) (md5sum : List UInt8 → List UInt8) (url : List UInt8) :
    AtomicCache.underLocks { t with calls := t.calls ++ [askCache md5sum url] } =
      { t.underLocks with calls := t.underLocks.calls ++ [enterCall md5sum url] } := by
  simp [AtomicCache.underLocks, AtomicCache.shared, askCache_line]

/-- Whatever a single step does can be done under the locks, if nobody else moves. -/
theorem AtomicStep.underLocks (h : AtomicStep ttl md5sum t label t')
    (ht : (cacheTrace ttl md5sum).Reachable (t.underLocks, log)) :
    (cacheTrace ttl md5sum).Reachable
      (t'.underLocks, log ++ traceEvents (atomicEvents t label t') label) := by
  cases h with
  | tick hnow => exact ht.log (.tick hnow)
  | call url =>
      rw [underLocks_call]
      exact ht.log (.call url)
  | create hpc hfind hnow =>
      rw [answerEvents_of_advance hpc, underLocks_set]
      exact (callRun_create hfind hnow).reachable ht (underLocks_getElem? hpc)
  | decide hpc hfind hrecord hnow hlater =>
      rw [answerEvents_of_advance hpc, underLocks_set]
      exact (callRun_decide hfind hrecord hnow hlater).reachable ht (underLocks_getElem? hpc)
  | close hpc hrecord =>
      rw [answerEvents_of_advance hpc, underLocks_set]
      exact (callRun_close hrecord).reachable ht (underLocks_getElem? hpc)

theorem cacheTrace_of_atomicTrace (h : (atomicTrace ttl md5sum).Reachable (t, log)) :
    (cacheTrace ttl md5sum).Reachable (t.underLocks, log) := by
  generalize hp : (t, log) = p at h
  induction h generalizing t log with
  | init h =>
      subst hp
      obtain ⟨⟨hcontent, hcalls⟩, hlog⟩ := h
      refine .init ⟨⟨hcontent, rfl, fun _ ↦ rfl, ?_⟩, hlog⟩
      rw [AtomicCache.underLocks, hcalls, List.map_nil]
  | @step p p' label hp' h ih =>
      obtain ⟨hstep, hlog⟩ := h
      subst hp
      dsimp only at hlog
      exact hlog ▸ AtomicStep.underLocks hstep (ih rfl)

theorem SameCall.line (content : CacheTable) (apc : AtomicPc) :
    SameCall content apc.line apc := by
  cases apc <;> constructor

theorem SameCalls.underLocks (t : AtomicCache) : SameCalls t.underLocks t := by
  refine ⟨rfl, rfl, ?_⟩
  rw [AtomicCache.underLocks, List.forall₂_map_left_iff]
  exact List.forall₂_same.mpr fun apc _ ↦ .line _ apc

/-- The cache under its locks is a cache whose lookups and closes are single steps: a run under
the locks has a run of single steps with the same log, the same records and each call at the same
place, and a run of single steps is one under the locks that stops while nobody is inside. -/
theorem cacheCalls_atomic (ttl : ℤ) (md5sum : List UInt8 → List UInt8) (log : List CallEvent) :
    (∀ s, (cacheTrace ttl md5sum).Reachable (s, log) →
        ∃ t, (atomicTrace ttl md5sum).Reachable (t, log) ∧ SameCalls s t) ∧
      ∀ t, (atomicTrace ttl md5sum).Reachable (t, log) →
        (cacheTrace ttl md5sum).Reachable (t.underLocks, log) ∧ SameCalls t.underLocks t := by
  refine ⟨fun s hs ↦ ?_, fun t ht ↦ ⟨cacheTrace_of_atomicTrace ht, .underLocks t⟩⟩
  obtain ⟨⟨t, log'⟩, ht, hsame, hlog⟩ := cacheTrace_refines.reachable hs
  obtain rfl : log' = log := hlog
  exact ⟨t, ht, hsame⟩

end HttpProxy
