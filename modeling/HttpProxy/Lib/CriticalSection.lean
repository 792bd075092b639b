import HttpProxy.Lib.TransitionSystem
import Mathlib.Logic.Function.Basic

/-!
# Critical sections

Any number of threads call operations on one shared value.  An operation takes the lock, works
through its steps, and releases the lock; the steps of different threads interleave freely.  The
lock makes every run equal to the serial one that executes the operations in the order in which
they release it.
-/

namespace CriticalSection

open Transition

/-- What an operation does between taking and releasing the lock, with its local variables. -/
structure Body (σ τ : Type*) where
  locals : τ
  steps : List (σ × τ → σ × τ)

def runSteps {σ τ : Type*} (steps : List (σ × τ → σ × τ)) (p : σ × τ) : σ × τ :=
  steps.foldl (fun p step ↦ step p) p

/-- The operation executed without interruption. -/
def Body.run {σ τ : Type*} (b : Body σ τ) (s : σ) : σ × τ := runSteps b.steps (s, b.locals)

inductive Pc (ω σ τ : Type*) where
  | idle
  | waiting (op : ω)
  | inside (op : ω) (locals : τ) (rest : List (σ × τ → σ × τ))

/-- `called` and `returned` collect the operations in the order in which they are called, and in
which they release the lock with the locals they end with. -/
structure State (ι ω σ τ : Type*) where
  shared : σ
  owner : Option ι
  pc : ι → Pc ω σ τ
  called : List (ι × ω)
  returned : List (ι × ω × τ)

variable {ι ω σ τ : Type*} [DecidableEq ι] {body : ω → Body σ τ} {s₀ base : σ}
  {s s' : State ι ω σ τ} {t u : ι}

inductive Step (body : ω → Body σ τ) (s : State ι ω σ τ) (t : ι) : State ι ω σ τ → Prop
  | call (op : ω) (hpc : s.pc t = .idle) :
      Step body s t
        { s with
          pc := Function.update s.pc t (.waiting op)
          called := s.called ++ [(t, op)] }
  | lock (op : ω) (hpc : s.pc t = .waiting op) (hfree : s.owner = none) :
      Step body s t
        { s with
          pc := Function.update s.pc t (.inside op (body op).locals (body op).steps)
          owner := some t }
  | act (op : ω) (locals : τ) (step : σ × τ → σ × τ) (rest : List (σ × τ → σ × τ))
      (hpc : s.pc t = .inside op locals (step :: rest)) :
      Step body s t
        { s with
          pc := Function.update s.pc t (.inside op (step (s.shared, locals)).2 rest)
          shared := (step (s.shared, locals)).1 }
  | unlock (op : ω) (locals : τ) (hpc : s.pc t = .inside op locals []) :
      Step body s t
        { s with
          pc := Function.update s.pc t .idle
          owner := none
          returned := s.returned ++ [(t, op, locals)] }

def system (body : ω → Body σ τ) (s₀ : σ) : System (State ι ω σ τ) ι where
  Init s := s = ⟨s₀, none, fun _ ↦ .idle, [], []⟩
  Step := Step body

/-! ## Serial executions -/

/-- The log of a serial execution that leads from the first value to the last. -/
inductive Serial (body : ω → Body σ τ) (s₀ : σ) : List (ι × ω × τ) → σ → Prop
  | nil : Serial body s₀ [] s₀
  | snoc {log : List (ι × ω × τ)} {s : σ} (h : Serial body s₀ log s) (t : ι) (op : ω) :
      Serial body s₀ (log ++ [(t, op, ((body op).run s).2)]) ((body op).run s).1

def Pc.Outside : Pc ω σ τ → Prop
  | .inside _ _ _ => False
  | _ => True

/-- The lock is free and the shared value is the last serial one, or the owner, alone inside, is
part of the way through its operation on that value. -/
inductive Held (body : ω → Body σ τ) (base : σ) (s : State ι ω σ τ) : Prop
  | free (howner : s.owner = none) (hshared : s.shared = base) (hout : ∀ t, (s.pc t).Outside)
  | taken (t : ι) (op : ω) (locals : τ) (done rest : List (σ × τ → σ × τ))
      (howner : s.owner = some t) (hpc : s.pc t = .inside op locals rest)
      (hsteps : (body op).steps = done ++ rest)
      (hshared : runSteps done (base, (body op).locals) = (s.shared, locals))
      (hout : ∀ u, u ≠ t → (s.pc u).Outside)

omit [DecidableEq ι] in
theorem Held.inside (h : Held body base s) {op : ω} {locals : τ}
    {rest : List (σ × τ → σ × τ)} (hpc : s.pc t = .inside op locals rest) :
    ∃ done, s.owner = some t ∧ (body op).steps = done ++ rest ∧
      runSteps done (base, (body op).locals) = (s.shared, locals) ∧
        ∀ u, u ≠ t → (s.pc u).Outside := by
  cases h with
  | free _ _ hout =>
      have h := hout t
      rw [hpc] at h
      exact h.elim
  | taken u op' locals' done rest' howner hpcu hsteps hshared hout =>
      by_cases htu : t = u
      · subst htu
        obtain ⟨rfl, rfl, rfl⟩ := Pc.inside.inj (hpcu.symm.trans hpc)
        exact ⟨done, howner, hsteps, hshared, hout⟩
      · have h := hout t htu
        rw [hpc] at h
        exact h.elim

theorem outside_update {pc : ι → Pc ω σ τ} {next : Pc ω σ τ} (hnext : next.Outside)
    (h : u ≠ t → (pc u).Outside) : (Function.update pc t next u).Outside := by
  by_cases hut : u = t
  · subst hut
    rwa [Function.update_self]
  · rw [Function.update_of_ne hut]
    exact h hut

/-- A thread moves between two places outside. -/
theorem Held.move (h : Held body base s) {pc next : Pc ω σ τ} (hpc : s.pc t = pc)
    (hbefore : pc.Outside) (hnext : next.Outside) (hshared : s'.shared = s.shared)
    (howner : s'.owner = s.owner) (hpcs : s'.pc = Function.update s.pc t next) :
    Held body base s' := by
  cases h with
  | free hfree hbase hout =>
      refine .free (howner.trans hfree) (hshared.trans hbase) fun u ↦ ?_
      rw [hpcs]
      exact outside_update hnext fun _ ↦ hout u
  | taken u op locals done rest htaken hpcu hsteps hdone hout =>
      have hut : u ≠ t := by
        rintro rfl
        rw [hpc] at hpcu
        subst hpcu
        exact hbefore
      refine .taken u op locals done rest (howner.trans htaken) ?_ hsteps ?_ ?_
      · rw [hpcs, Function.update_of_ne hut, hpcu]
      · rw [hshared]
        exact hdone
      · intro v hv
        rw [hpcs]
        exact outside_update hnext fun _ ↦ hout v hv

/-- The operations a thread has called and that have not yet returned. -/
def Pc.pending : Pc ω σ τ → List ω
  | .idle => []
  | .waiting op => [op]
  | .inside op _ _ => [op]

def callsOf (t : ι) (called : List (ι × ω)) : List ω :=
  (called.filter fun call ↦ call.1 = t).map Prod.snd

def returnsOf (t : ι) (returned : List (ι × ω × τ)) : List ω :=
  (returned.filter fun entry ↦ entry.1 = t).map fun entry ↦ entry.2.1

theorem callsOf_concat (called : List (ι × ω)) (t u : ι) (op : ω) :
    callsOf u (called ++ [(t, op)]) = callsOf u called ++ if t = u then [op] else [] := by
  by_cases htu : t = u <;> simp [callsOf, htu]

theorem returnsOf_concat (returned : List (ι × ω × τ)) (t u : ι) (op : ω) (locals : τ) :
    returnsOf u (returned ++ [(t, op, locals)]) =
      returnsOf u returned ++ if t = u then [op] else [] := by
  by_cases htu : t = u <;> simp [returnsOf, htu]

/-- The run so far is a serial execution of what has returned, with at most one operation under
way, and each thread's operations are executed in the order in which it called them. -/
structure Serialized (body : ω → Body σ τ) (s₀ : σ) (s : State ι ω σ τ) : Prop where
  serial : ∃ base, Serial body s₀ s.returned base ∧ Held body base s
  inOrder : ∀ t, callsOf t s.called = returnsOf t s.returned ++ (s.pc t).pending

theorem Serialized.step (hs : Serialized body s₀ s) (h : Step body s t s') :
    Serialized body s₀ s' := by
  obtain ⟨⟨base, hserial, hheld⟩, hinOrder⟩ := hs
  cases h with
  | call op hpc =>
      refine ⟨⟨base, hserial, hheld.move hpc (by trivial) (by trivial) rfl rfl rfl⟩,
        fun u ↦ ?_⟩
      rw [callsOf_concat, hinOrder u]
      by_cases hut : t = u
      · subst hut
        simp [hpc, Pc.pending]
      · simp [hut, Function.update_of_ne (Ne.symm hut)]
  | lock op hpc hfree =>
      refine ⟨⟨base, hserial, ?_⟩, fun u ↦ ?_⟩
      · cases hheld with
        | free _ hbase hout =>
            refine .taken t _ _ [] _ rfl (Function.update_self ..) rfl ?_ ?_
            · rw [← hbase]
              rfl
            · intro u hu
              simpa [Function.update_of_ne hu] using hout u
        | taken u op locals done rest howner => simp [hfree] at howner
      · by_cases hut : u = t
        · subst hut
          simp [hinOrder, hpc, Pc.pending]
        · simp [hinOrder, Function.update_of_ne hut]
  | act op locals step rest hpc =>
      obtain ⟨done, howner, hsteps, hshared, hout⟩ := hheld.inside hpc
      refine ⟨⟨base, hserial, ?_⟩, fun u ↦ ?_⟩
      · refine .taken t op _ (done ++ [step]) rest howner (Function.update_self ..) ?_ ?_ ?_
        · rw [hsteps, List.append_assoc, List.singleton_append]
        · rw [runSteps] at hshared ⊢
          rw [List.foldl_append, hshared]
          rfl
        · intro u hu
          simpa [Function.update_of_ne hu] using hout u hu
      · by_cases hut : u = t
        · subst hut
          simp [hinOrder, hpc, Pc.pending]
        · simp [hinOrder, Function.update_of_ne hut]
  | unlock op locals hpc =>
      obtain ⟨done, howner, hsteps, hshared, hout⟩ := hheld.inside hpc
      rw [List.append_nil] at hsteps
      have hrun : (body op).run base = (s.shared, locals) := by rw [Body.run, hsteps, hshared]
      have hnext := hserial.snoc t op
      rw [hrun] at hnext
      refine ⟨⟨s.shared, hnext, .free rfl rfl fun u ↦ ?_⟩, fun u ↦ ?_⟩
      · exact outside_update trivial (hout u)
      · rw [returnsOf_concat, hinOrder u]
        by_cases hut : t = u
        · subst hut
          simp [hpc, Pc.pending]
        · simp [hut, Function.update_of_ne (Ne.symm hut)]

/-- Every run is serialized by the order in which the lock is released. -/
theorem serialized_reachable (hs : (system body s₀).Reachable s) : Serialized body s₀ s := by
  refine System.reachable_induction (I := Serialized body s₀) ?_ ?_ hs
  · rintro s rfl
    exact ⟨⟨s₀, .nil, .free rfl rfl fun _ ↦ trivial⟩, fun _ ↦ rfl⟩
  · intro s t s' ih h
    exact ih.step h

end CriticalSection
