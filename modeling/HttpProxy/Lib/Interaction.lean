import Mathlib.Tactic.Common

/-!
# Programs that call their surroundings

A program is a tree of calls: it returns, halts on a fault, or performs an operation and
goes on with the answer.  A protocol says what a program may call in each state, what the
surroundings may answer and how the state moves.  Whether a program keeps a protocol is
computed along the tree, and so carries over to each of its runs.
-/

namespace Interaction

variable {Op : Type} {Resp : Op → Type} {ε α β σ : Type}

/-- Programs over operations `op` that are answered in `Resp op`. -/
inductive Prog (Resp : Op → Type) (ε α : Type) : Type
  | ret (a : α)
  | halt (e : ε)
  | call (op : Op) (k : Resp op → Prog Resp ε α)

abbrev Event (Resp : Op → Type) := (op : Op) × Resp op

namespace Prog

def bind (p : Prog Resp ε α) (f : α → Prog Resp ε β) : Prog Resp ε β :=
  match p with
  | .ret a => f a
  | .halt e => .halt e
  | .call op k => .call op fun r ↦ (k r).bind f

instance : Monad (Prog Resp ε) where
  pure := .ret
  bind := bind

def perform (op : Op) : Prog Resp ε (Resp op) := .call op .ret

def lift : Except ε α → Prog Resp ε α
  | .ok a => .ret a
  | .error e => .halt e

@[simp] theorem pure_eq (a : α) : (pure a : Prog Resp ε α) = .ret a := rfl

@[simp] theorem ret_bind (a : α) (f : α → Prog Resp ε β) : (.ret a : Prog Resp ε α) >>= f = f a :=
  rfl

@[simp] theorem halt_bind (e : ε) (f : α → Prog Resp ε β) :
    (.halt e : Prog Resp ε α) >>= f = .halt e :=
  rfl

@[simp] theorem call_bind (op : Op) (k : Resp op → Prog Resp ε α) (f : α → Prog Resp ε β) :
    .call op k >>= f = .call op fun r ↦ k r >>= f :=
  rfl

@[simp] theorem perform_bind (op : Op) (f : Resp op → Prog Resp ε β) :
    perform op >>= f = .call op f :=
  rfl

@[simp] theorem lift_ok (a : α) : (lift (.ok a) : Prog Resp ε α) = .ret a := rfl

@[simp] theorem lift_error (e : ε) : (lift (.error e) : Prog Resp ε α) = .halt e := rfl

/-- Every call of the program is an allowed one. -/
def Calls (A : Op → Prop) : Prog Resp ε α → Prop
  | .ret _ => True
  | .halt _ => True
  | .call op k => A op ∧ ∀ r, (k r).Calls A

@[simp] theorem calls_ret (A : Op → Prop) (a : α) : (.ret a : Prog Resp ε α).Calls A := trivial

@[simp] theorem calls_halt (A : Op → Prop) (e : ε) : (.halt e : Prog Resp ε α).Calls A := trivial

@[simp] theorem calls_call {A : Op → Prop} {op : Op} {k : Resp op → Prog Resp ε α} :
    (Prog.call op k).Calls A ↔ A op ∧ ∀ r, (k r).Calls A :=
  Iff.rfl

theorem Calls.bind {A : Op → Prop} {p : Prog Resp ε α} {f : α → Prog Resp ε β} (hp : p.Calls A)
    (hf : ∀ a, (f a).Calls A) : (p >>= f).Calls A := by
  induction p with
  | ret a => exact hf a
  | halt e => trivial
  | call op k ih => exact ⟨hp.1, fun r ↦ ih r (hp.2 r)⟩

theorem Calls.mono {A B : Op → Prop} {p : Prog Resp ε α} (hp : p.Calls A)
    (hAB : ∀ op, A op → B op) : p.Calls B := by
  induction p with
  | ret a => trivial
  | halt e => trivial
  | call op k ih => exact ⟨hAB op hp.1, fun r ↦ ih r (hp.2 r)⟩

/-- Every call of the program is an allowed one and what it returns meets `Q`. -/
def Within (A : Op → Prop) (Q : α → Prop) : Prog Resp ε α → Prop
  | .ret a => Q a
  | .halt _ => True
  | .call op k => A op ∧ ∀ r, (k r).Within A Q

@[simp] theorem within_ret {A : Op → Prop} {Q : α → Prop} {a : α} :
    (.ret a : Prog Resp ε α).Within A Q ↔ Q a :=
  Iff.rfl

@[simp] theorem within_halt (A : Op → Prop) (Q : α → Prop) (e : ε) :
    (.halt e : Prog Resp ε α).Within A Q :=
  trivial

@[simp] theorem within_call {A : Op → Prop} {Q : α → Prop} {op : Op}
    {k : Resp op → Prog Resp ε α} :
    (Prog.call op k).Within A Q ↔ A op ∧ ∀ r, (k r).Within A Q :=
  Iff.rfl

theorem Within.mono {A : Op → Prop} {Q R : α → Prop} {p : Prog Resp ε α} (hp : p.Within A Q)
    (hQR : ∀ a, Q a → R a) : p.Within A R := by
  induction p with
  | ret a => exact hQR a hp
  | halt e => trivial
  | call op k ih => exact ⟨hp.1, fun r ↦ ih r (hp.2 r)⟩

theorem Within.bind {A : Op → Prop} {Q : α → Prop} {R : β → Prop} {p : Prog Resp ε α}
    {f : α → Prog Resp ε β} (hp : p.Within A Q) (hf : ∀ a, Q a → (f a).Within A R) :
    (p >>= f).Within A R := by
  induction p with
  | ret a => exact hf a hp
  | halt e => trivial
  | call op k ih => exact ⟨hp.1, fun r ↦ ih r (hp.2 r)⟩

theorem Calls.within {A B : Op → Prop} {p : Prog Resp ε α} (hp : p.Calls A)
    (hAB : ∀ op, A op → B op) : p.Within B fun _ ↦ True := by
  induction p with
  | ret a => trivial
  | halt e => trivial
  | call op k ih => exact ⟨hAB op hp.1, fun r ↦ ih r (hp.2 r)⟩

/-- Every fault the program may halt on is in `E`. -/
def Halts (E : ε → Prop) : Prog Resp ε α → Prop
  | .ret _ => True
  | .halt e => E e
  | .call _ k => ∀ r, (k r).Halts E

@[simp] theorem halts_ret (E : ε → Prop) (a : α) : (.ret a : Prog Resp ε α).Halts E := trivial

@[simp] theorem halts_halt {E : ε → Prop} {e : ε} :
    (.halt e : Prog Resp ε α).Halts E ↔ E e :=
  Iff.rfl

@[simp] theorem halts_call {E : ε → Prop} {op : Op} {k : Resp op → Prog Resp ε α} :
    (Prog.call op k).Halts E ↔ ∀ r, (k r).Halts E :=
  Iff.rfl

theorem Halts.bind {E : ε → Prop} {p : Prog Resp ε α} {f : α → Prog Resp ε β} (hp : p.Halts E)
    (hf : ∀ a, (f a).Halts E) : (p >>= f).Halts E := by
  induction p with
  | ret a => exact hf a
  | halt e => exact hp
  | call op k ih => exact fun r ↦ ih r (hp r)

theorem Halts.mono {E F : ε → Prop} {p : Prog Resp ε α} (hp : p.Halts E) (hEF : ∀ e, E e → F e) :
    p.Halts F := by
  induction p with
  | ret a => trivial
  | halt e => exact hEF e hp
  | call op k ih => exact fun r ↦ ih r (hp r)

/-- Some answers to calls in `A` bring the first program to where it goes on as the second. -/
inductive Leads (A : Op → Prop) : Prog Resp ε α → Prog Resp ε α → Prop
  | here (p : Prog Resp ε α) : Leads A p p
  | call {op : Op} {k : Resp op → Prog Resp ε α} {p : Prog Resp ε α} (hop : A op) (r : Resp op)
      (h : Leads A (k r) p) : Leads A (.call op k) p

theorem Leads.trans {A : Op → Prop} {p p' p'' : Prog Resp ε α} (h : p.Leads A p')
    (h' : p'.Leads A p'') : p.Leads A p'' := by
  induction h with
  | here => exact h'
  | call hop r _ ih => exact .call hop r (ih h')

theorem Leads.bind {A : Op → Prop} {p p' : Prog Resp ε α} (h : p.Leads A p')
    (f : α → Prog Resp ε β) : (p >>= f).Leads A (p' >>= f) := by
  induction h with
  | here => exact .here _
  | call hop r _ ih => exact .call hop r ih

end Prog

/-- What a program may call, what it may be answered and how the state moves. -/
structure Protocol (Resp : Op → Type) (σ : Type) where
  requires : σ → Op → Prop
  answers : σ → (op : Op) → Resp op → Prop
  next : σ → (op : Op) → Resp op → σ

namespace Protocol

variable {P : Protocol Resp σ} {p : Prog Resp ε α} {f : α → Prog Resp ε β} {s s' : σ}
  {tr : List (Event Resp)} {out : Except ε α}

/-- From state `s` the program only calls what it may, whatever the allowed answers, and
ends in a state and with an outcome that meet `Q`. -/
def Keeps (P : Protocol Resp σ) : Prog Resp ε α → (σ → Except ε α → Prop) → σ → Prop
  | .ret a, Q, s => Q s (.ok a)
  | .halt e, Q, s => Q s (.error e)
  | .call op k, Q, s => P.requires s op ∧ ∀ r, P.answers s op r → P.Keeps (k r) Q (P.next s op r)

/-- The runs of a program against answers the protocol allows. -/
inductive Run (P : Protocol Resp σ) :
    σ → Prog Resp ε α → List (Event Resp) → σ → Except ε α → Prop
  | ret {s : σ} (a : α) : Run P s (.ret a) [] s (.ok a)
  | halt {s : σ} (e : ε) : Run P s (.halt e) [] s (.error e)
  | call {s s' : σ} {op : Op} {k : Resp op → Prog Resp ε α} {r : Resp op}
      {tr : List (Event Resp)} {out : Except ε α} (hr : P.answers s op r)
      (h : Run P (P.next s op r) (k r) tr s' out) :
      Run P s (.call op k) (⟨op, r⟩ :: tr) s' out

/-! ## Rules -/

@[simp] theorem keeps_ret {Q : σ → Except ε α → Prop} (a : α) :
    P.Keeps (.ret a) Q s ↔ Q s (.ok a) :=
  Iff.rfl

@[simp] theorem keeps_halt {Q : σ → Except ε α → Prop} (e : ε) :
    P.Keeps (.halt e) Q s ↔ Q s (.error e) :=
  Iff.rfl

@[simp] theorem keeps_call {Q : σ → Except ε α → Prop} {op : Op}
    {k : Resp op → Prog Resp ε α} :
    P.Keeps (.call op k) Q s ↔
      P.requires s op ∧ ∀ r, P.answers s op r → P.Keeps (k r) Q (P.next s op r) :=
  Iff.rfl

theorem Keeps.mono {Q R : σ → Except ε α → Prop} (h : P.Keeps p Q s)
    (hQR : ∀ s out, Q s out → R s out) : P.Keeps p R s := by
  induction p generalizing s with
  | ret a => exact hQR _ _ h
  | halt e => exact hQR _ _ h
  | call op k ih => exact ⟨h.1, fun r hr ↦ ih r (h.2 r hr)⟩

theorem Keeps.and {Q R : σ → Except ε α → Prop} (hQ : P.Keeps p Q s) (hR : P.Keeps p R s) :
    P.Keeps p (fun s' out ↦ Q s' out ∧ R s' out) s := by
  induction p generalizing s with
  | ret a => exact ⟨hQ, hR⟩
  | halt e => exact ⟨hQ, hR⟩
  | call op k ih => exact ⟨hQ.1, fun r hr ↦ ih r (hQ.2 r hr) (hR.2 r hr)⟩

/-- What a protocol promises on a part of the state it promises on the whole, if the rest of the
state has no say in the calls that are made. -/
theorem Keeps.comap {τ : Type} {P' : Protocol Resp τ} {A : Op → Prop}
    {Q : σ → Except ε α → Prop} (f : τ → σ) (hp : p.Calls A)
    (hrequires : ∀ t op, A op → P.requires (f t) op → P'.requires t op)
    (hanswers : ∀ t op r, A op → P'.answers t op r → P.answers (f t) op r)
    (hnext : ∀ t op r, A op → f (P'.next t op r) = P.next (f t) op r) {t : τ}
    (h : P.Keeps p Q (f t)) : P'.Keeps p (fun t' out ↦ Q (f t') out) t := by
  induction p generalizing t with
  | ret a => exact h
  | halt e => exact h
  | call op k ih =>
      refine ⟨hrequires t op hp.1 h.1, fun r hr ↦ ih r (hp.2 r) ?_⟩
      rw [hnext t op r hp.1]
      exact h.2 r (hanswers t op r hp.1 hr)

/-- A sequence keeps the protocol if its second part does from wherever the first ends. -/
theorem Keeps.bind {Q : σ → Except ε α → Prop} {R : σ → Except ε β → Prop}
    (h : P.Keeps p Q s) (hok : ∀ s a, Q s (.ok a) → P.Keeps (f a) R s)
    (herror : ∀ s e, Q s (.error e) → R s (.error e)) : P.Keeps (p >>= f) R s := by
  induction p generalizing s with
  | ret a => exact hok _ _ h
  | halt e => exact herror _ _ h
  | call op k ih => exact ⟨h.1, fun r hr ↦ ih r (h.2 r hr)⟩

/-- What each of a program's calls keeps holds at its end. -/
theorem keeps_of_calls_invariant {A : Op → Prop} {I : σ → Prop} (hp : p.Calls A)
    (hrequires : ∀ s op, A op → P.requires s op)
    (hnext : ∀ s op, A op → I s → ∀ r, I (P.next s op r)) (hs : I s) :
    P.Keeps p (fun s' _ ↦ I s') s := by
  induction p generalizing s with
  | ret a => exact hs
  | halt e => exact hs
  | call op k ih =>
      exact ⟨hrequires s op hp.1, fun r _ ↦ ih r (hp.2 r) (hnext s op hp.1 hs r)⟩

/-- What none of a program's calls changes is at the end as it was. -/
theorem keeps_of_calls {τ : Type} {A : Op → Prop} (f : σ → τ) (hp : p.Calls A)
    (hrequires : ∀ s op, A op → P.requires s op)
    (hnext : ∀ s op, A op → ∀ r, f (P.next s op r) = f s) :
    P.Keeps p (fun s' _ ↦ f s' = f s) s := by
  induction p generalizing s with
  | ret a => rfl
  | halt e => rfl
  | call op k ih =>
      refine ⟨hrequires s op hp.1, fun r _ ↦ (ih r (hp.2 r)).mono fun s' _ h ↦ ?_⟩
      rw [h, hnext s op hp.1 r]

/-! ## Triples -/

/-- From a state that meets `pre` the program keeps the protocol, and where it returns, its
result and the state meet `post`. -/
def Triple (P : Protocol Resp σ) (pre : σ → Prop) (p : Prog Resp ε α) (post : α → σ → Prop) :
    Prop :=
  ∀ s, pre s → P.Keeps p (fun s' out ↦ ∀ a, out = .ok a → post a s') s

section Triples

variable {pre : σ → Prop} {post : α → σ → Prop}

theorem triple_ret {a : α} (h : ∀ s, pre s → post a s) :
    P.Triple pre (.ret a : Prog Resp ε α) post := by
  intro s hs b hb
  cases hb
  exact h s hs

theorem triple_halt (e : ε) : P.Triple pre (.halt e : Prog Resp ε α) post := fun _ _ ↦ nofun

theorem triple_call {op : Op} {k : Resp op → Prog Resp ε α} {mid : Resp op → σ → Prop}
    (hrequires : ∀ s, pre s → P.requires s op)
    (hnext : ∀ s r, pre s → P.answers s op r → mid r (P.next s op r))
    (hk : ∀ r, P.Triple (mid r) (k r) post) : P.Triple pre (.call op k) post :=
  fun s hs ↦ ⟨hrequires s hs, fun r hr ↦ hk r _ (hnext s r hs hr)⟩

theorem Triple.bind {mid : α → σ → Prop} {post : β → σ → Prop} (hp : P.Triple pre p mid)
    (hf : ∀ a, P.Triple (mid a) (f a) post) : P.Triple pre (p >>= f) post := by
  intro s hs
  apply (hp s hs).bind (fun s' a h ↦ hf a s' (h a rfl))
  rintro s' e - a ⟨⟩

theorem Triple.mono {pre' : σ → Prop} {post' : α → σ → Prop} (hp : P.Triple pre p post)
    (hpre : ∀ s, pre' s → pre s) (hpost : ∀ a s, post a s → post' a s) : P.Triple pre' p post' :=
  fun s hs ↦ (hp s (hpre s hs)).mono fun s' _ h a ha ↦ hpost a s' (h a ha)

theorem triple_of_calls {A : Op → Prop} {I : σ → Prop} (hp : p.Calls A)
    (hrequires : ∀ s op, A op → P.requires s op)
    (hnext : ∀ s op, A op → I s → ∀ r, I (P.next s op r)) : P.Triple I p fun _ ↦ I :=
  fun _ hs ↦ (keeps_of_calls_invariant hp hrequires hnext hs).mono fun _ _ h _ _ ↦ h

end Triples

/-! ## Runs -/

@[simp] theorem run_ret {a : α} :
    P.Run s (.ret a) tr s' out ↔ tr = [] ∧ s' = s ∧ out = .ok a := by
  constructor
  · intro h
    cases h with
    | ret => exact ⟨rfl, rfl, rfl⟩
  · rintro ⟨rfl, rfl, rfl⟩
    exact .ret a

@[simp] theorem run_halt {e : ε} :
    P.Run s (.halt e) tr s' out ↔ tr = [] ∧ s' = s ∧ out = .error e := by
  constructor
  · intro h
    cases h with
    | halt => exact ⟨rfl, rfl, rfl⟩
  · rintro ⟨rfl, rfl, rfl⟩
    exact .halt e

@[simp] theorem run_call {op : Op} {k : Resp op → Prog Resp ε α} :
    P.Run s (.call op k) tr s' out ↔
      ∃ r tr', P.answers s op r ∧ tr = ⟨op, r⟩ :: tr' ∧
        P.Run (P.next s op r) (k r) tr' s' out := by
  constructor
  · intro h
    cases h with
    | call hr h => exact ⟨_, _, hr, rfl, h⟩
  · rintro ⟨r, tr', hr, rfl, h⟩
    exact .call hr h

/-- What the tree promises holds at the end of every run. -/
theorem Run.keeps {Q : σ → Except ε α → Prop} (hrun : P.Run s p tr s' out)
    (h : P.Keeps p Q s) : Q s' out := by
  induction hrun with
  | ret a => exact h
  | halt e => exact h
  | call hr _ ih => exact ih (h.2 _ hr)

/-- A run of a program makes its calls and returns one of its results. -/
theorem Run.within {A : Op → Prop} {Q : α → Prop} (hrun : P.Run s p tr s' out)
    (h : p.Within A Q) : (∀ e ∈ tr, A e.1) ∧ ∀ a, out = .ok a → Q a := by
  induction hrun with
  | ret a =>
      refine ⟨by simp, fun b hb ↦ ?_⟩
      cases hb
      exact h
  | halt e => exact ⟨by simp, nofun⟩
  | @call s s' op k r tr out hr _ ih =>
      obtain ⟨hcalls, hresult⟩ := ih (h.2 r)
      exact ⟨List.forall_mem_cons.mpr ⟨h.1, hcalls⟩, hresult⟩

theorem Run.calls {A : Op → Prop} (hrun : P.Run s p tr s' out) (h : p.Calls A) :
    ∀ e ∈ tr, A e.1 :=
  (hrun.within (h.within fun _ ↦ id)).1

theorem Run.triple {pre : σ → Prop} {post : α → σ → Prop} (hrun : P.Run s p tr s' out)
    (hp : P.Triple pre p post) (hs : pre s) {a : α} (ha : out = .ok a) : post a s' :=
  hrun.keeps (hp s hs) a ha

/-- A run that stops stops on one of the program's faults. -/
theorem Run.halts {E : ε → Prop} {e : ε} (hrun : P.Run s p tr s' (.error e)) (h : p.Halts E) :
    E e := by
  generalize hout : (.error e : Except ε α) = out at hrun
  induction hrun with
  | ret a => cases hout
  | halt e' =>
      obtain rfl := Except.error.inj hout
      exact h
  | call _ _ ih => exact ih (h _) hout

/-- A run against one protocol is a run against another one that sees less of the state. -/
theorem Run.map {τ : Type} {P' : Protocol Resp τ} (f : σ → τ) (hrun : P.Run s p tr s' out)
    (hanswers : ∀ s op r, P.answers s op r → P'.answers (f s) op r)
    (hnext : ∀ s op r, P'.next (f s) op r = f (P.next s op r)) : P'.Run (f s) p tr (f s') out := by
  induction hrun with
  | ret a => exact .ret a
  | halt e => exact .halt e
  | call hr _ ih =>
      refine .call (hanswers _ _ _ hr) ?_
      rw [hnext]
      exact ih

theorem Run.weaken {P' : Protocol Resp σ} (hrun : P.Run s p tr s' out)
    (hanswers : ∀ s op r, P.answers s op r → P'.answers s op r) (hnext : P'.next = P.next) :
    P'.Run s p tr s' out :=
  hrun.map id hanswers fun _ _ _ ↦ by rw [hnext]; rfl

theorem exists_run (htotal : ∀ s op, ∃ r, P.answers s op r) (p : Prog Resp ε α) (s : σ) :
    ∃ tr s' out, P.Run s p tr s' out := by
  induction p generalizing s with
  | ret a => exact ⟨_, _, _, .ret a⟩
  | halt e => exact ⟨_, _, _, .halt e⟩
  | call op k ih =>
      obtain ⟨r, hr⟩ := htotal s op
      obtain ⟨tr, s', out, h⟩ := ih r (P.next s op r)
      exact ⟨_, _, _, .call hr h⟩

/-- A run of a sequence stops in the first part or goes through both. -/
theorem Run.bind_cases {out : Except ε β} (h : P.Run s (p >>= f) tr s' out) :
    (∃ e, P.Run s p tr s' (.error e) ∧ out = .error e) ∨
      ∃ a tr₁ s₁ tr₂, P.Run s p tr₁ s₁ (.ok a) ∧ P.Run s₁ (f a) tr₂ s' out ∧
        tr = tr₁ ++ tr₂ := by
  induction p generalizing s tr with
  | ret a => exact .inr ⟨a, [], s, tr, .ret a, h, rfl⟩
  | halt e =>
      cases h with
      | halt => exact .inl ⟨e, .halt e, rfl⟩
  | call op k ih =>
      cases h with
      | call hr h =>
          rcases ih _ h with ⟨e, he, rfl⟩ | ⟨a, tr₁, s₁, tr₂, h₁, h₂, rfl⟩
          · exact .inl ⟨e, .call hr he, rfl⟩
          · exact .inr ⟨a, _, s₁, tr₂, .call hr h₁, h₂, rfl⟩

/-- A sequence that returns goes through both parts. -/
theorem Run.bind_ok {b : β} (h : P.Run s (p >>= f) tr s' (.ok b)) :
    ∃ a tr₁ s₁ tr₂, P.Run s p tr₁ s₁ (.ok a) ∧ P.Run s₁ (f a) tr₂ s' (.ok b) ∧
      tr = tr₁ ++ tr₂ := by
  rcases h.bind_cases with ⟨e, -, hout⟩ | hboth
  · cases hout
  · exact hboth

theorem Run.bind {out : Except ε β} {tr₁ tr₂ : List (Event Resp)} {s₁ : σ} {a : α}
    (h : P.Run s p tr₁ s₁ (.ok a)) (hf : P.Run s₁ (f a) tr₂ s' out) :
    P.Run s (p >>= f) (tr₁ ++ tr₂) s' out := by
  generalize hout : (.ok a : Except ε α) = out' at h
  induction h with
  | ret b =>
      obtain rfl := Except.ok.inj hout
      exact hf
  | halt e => cases hout
  | call hr _ ih => exact .call hr (ih hf hout)

theorem Run.bind_error {e : ε} (h : P.Run s p tr s' (.error e)) :
    P.Run s (p >>= f) tr s' (.error e) := by
  generalize hout : (.error e : Except ε α) = out' at h
  induction h with
  | ret b => cases hout
  | halt e' =>
      obtain rfl := Except.error.inj hout
      exact .halt e
  | call hr _ ih => exact .call hr (ih hout)

/-! ## The same runs -/

/-- From state `s` the two programs have the same runs. -/
def SameRuns (P : Protocol Resp σ) (s : σ) (p q : Prog Resp ε α) : Prop :=
  ∀ tr s' out, P.Run s p tr s' out ↔ P.Run s q tr s' out

theorem SameRuns.refl (p : Prog Resp ε α) : P.SameRuns s p p := fun _ _ _ ↦ Iff.rfl

theorem SameRuns.call {op : Op} {k k' : Resp op → Prog Resp ε α}
    (h : ∀ r, P.answers s op r → P.SameRuns (P.next s op r) (k r) (k' r)) :
    P.SameRuns s (.call op k) (.call op k') := by
  intro tr s' out
  rw [run_call, run_call]
  constructor
  · rintro ⟨r, tr', hr, htr, hrun⟩
    exact ⟨r, tr', hr, htr, (h r hr _ _ _).mp hrun⟩
  · rintro ⟨r, tr', hr, htr, hrun⟩
    exact ⟨r, tr', hr, htr, (h r hr _ _ _).mpr hrun⟩

/-- Two programs that start alike have the same runs if they go on alike from where the start
can end. -/
theorem SameRuns.bind {Q : σ → Except ε α → Prop} {g : α → Prog Resp ε β} (hp : P.Keeps p Q s)
    (h : ∀ s' a, Q s' (.ok a) → P.SameRuns s' (f a) (g a)) :
    P.SameRuns s (p >>= f) (p >>= g) := by
  induction p generalizing s with
  | ret a => exact h s a hp
  | halt e => exact .refl _
  | call op k ih => exact .call fun r hr ↦ ih r (hp.2 r hr)

theorem SameRuns.bind_left {q : Prog Resp ε α} (h : P.SameRuns s p q) :
    P.SameRuns s (p >>= f) (q >>= f) := by
  intro tr s' out
  constructor
  · intro hrun
    rcases hrun.bind_cases with ⟨e, hp, rfl⟩ | ⟨a, tr₁, s₁, tr₂, hp, hf, rfl⟩
    · exact ((h _ _ _).mp hp).bind_error
    · exact ((h _ _ _).mp hp).bind hf
  · intro hrun
    rcases hrun.bind_cases with ⟨e, hp, rfl⟩ | ⟨a, tr₁, s₁, tr₂, hp, hf, rfl⟩
    · exact ((h _ _ _).mpr hp).bind_error
    · exact ((h _ _ _).mpr hp).bind hf

end Protocol

end Interaction
