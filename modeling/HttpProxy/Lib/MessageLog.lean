import HttpProxy.Lib.Interaction

/-!
# Programs that keep a log

Beside its calls a program writes messages to a log, which does not answer.  The messages can be
taken out of the program, as far as the answers to its calls are what they are documented to be:
what is left makes the same calls and comes to the same end.
-/

namespace Interaction

variable {Op μ : Type} {Resp : Op → Type} {ε α β σ : Type}

inductive WithLog (Op μ : Type) : Type
  | call (op : Op)
  | log (message : μ)

abbrev LogResp (μ : Type) (Resp : Op → Type) : WithLog Op μ → Type
  | .call op => Resp op
  | .log _ => Unit

namespace Prog

/-- A program that writes no messages. -/
def silent (μ : Type) : Prog Resp ε α → Prog (LogResp μ Resp) ε α
  | .ret a => .ret a
  | .halt e => .halt e
  | .call op k => .call (.call op) fun r ↦ (k r).silent μ

def say (message : μ) : Prog (LogResp μ Resp) ε Unit := .call (.log message) .ret

@[simp] theorem say_bind (message : μ) (f : Unit → Prog (LogResp μ Resp) ε β) :
    say message >>= f = .call (.log message) f :=
  rfl

/-- The first program is the second one with messages in it that meet `M`, as far as each call
gets an answer in `A`. -/
inductive Logs (A : (op : Op) → Resp op → Prop) (M : μ → Prop) :
    Prog (LogResp μ Resp) ε α → Prog Resp ε α → Prop
  | ret (a : α) : Logs A M (.ret a) (.ret a)
  | halt (e : ε) : Logs A M (.halt e) (.halt e)
  | call {op : Op} {k : Resp op → Prog (LogResp μ Resp) ε α} {k' : Resp op → Prog Resp ε α}
      (h : ∀ r, A op r → Logs A M (k r) (k' r)) : Logs A M (.call (.call op) k) (.call op k')
  | log {message : μ} {k : Unit → Prog (LogResp μ Resp) ε α} {p : Prog Resp ε α}
      (hmessage : M message) (h : Logs A M (k ()) p) : Logs A M (.call (.log message) k) p

variable {A : (op : Op) → Resp op → Prop} {M : μ → Prop} {p : Prog (LogResp μ Resp) ε α}
  {q : Prog Resp ε α}

theorem logs_silent (q : Prog Resp ε α) : (q.silent μ).Logs A M q := by
  induction q with
  | ret a => exact .ret a
  | halt e => exact .halt e
  | call op k ih => exact .call fun r _ ↦ ih r

theorem logs_lift (x : Except ε α) :
    (lift x : Prog (LogResp μ Resp) ε α).Logs A M (lift x) := by
  cases x with
  | ok a => exact .ret a
  | error e => exact .halt e

theorem Logs.bind {f : α → Prog (LogResp μ Resp) ε β} {g : α → Prog Resp ε β}
    (h : p.Logs A M q) (hf : ∀ a, (f a).Logs A M (g a)) : (p >>= f).Logs A M (q >>= g) := by
  induction h with
  | ret a => exact hf a
  | halt e => exact .halt e
  | call _ ih => exact .call ih
  | log hmessage _ ih => exact .log hmessage ih

theorem logs_perform_bind {op : Op} {f : Resp op → Prog (LogResp μ Resp) ε α}
    {g : Resp op → Prog Resp ε α} (h : ∀ r, A op r → (f r).Logs A M (g r)) :
    ((perform op).silent μ >>= f).Logs A M (perform op >>= g) :=
  .call h

/-- What comes to nothing but messages can stand in front. -/
theorem Logs.ret_bind {p : Prog (LogResp μ Resp) ε β} {b : β}
    {f : β → Prog (LogResp μ Resp) ε α} (hp : p.Logs A M (.ret b)) (h : (f b).Logs A M q) :
    (p >>= f).Logs A M q := by
  generalize hret : (.ret b : Prog Resp ε β) = r at hp
  induction hp with
  | ret a =>
      cases hret
      exact h
  | halt e => cases hret
  | call _ _ => cases hret
  | log hmessage _ ih => exact .log hmessage (ih hret)

/-- A part without messages can be followed with what is known of its result. -/
theorem logs_silent_bind {B : Op → Prop} {Q : β → Prop} {r : Prog Resp ε β}
    {f : β → Prog (LogResp μ Resp) ε α} {g : β → Prog Resp ε α} (hr : r.Within B Q)
    (hf : ∀ b, Q b → (f b).Logs A M (g b)) : (r.silent μ >>= f).Logs A M (r >>= g) := by
  induction r with
  | ret b => exact hf b hr
  | halt e => exact .halt e
  | call op k ih => exact .call fun b _ ↦ ih b (hr.2 b)

end Prog

/-! ## Runs -/

/-- The messages are nothing to the surroundings. -/
def Protocol.withLog (μ : Type) (P : Protocol Resp σ) : Protocol (LogResp μ Resp) σ where
  requires s
    | .call op => P.requires s op
    | .log _ => True
  answers s
    | .call op, r => P.answers s op r
    | .log _, _ => True
  next s
    | .call op, r => P.next s op r
    | .log _, _ => s

/-- The calls among what a program did. -/
def callsIn : List (Event (LogResp μ Resp)) → List (Event Resp)
  | [] => []
  | ⟨.call op, r⟩ :: tr => ⟨op, r⟩ :: callsIn tr
  | ⟨.log _, _⟩ :: tr => callsIn tr

/-- The messages among what a program did. -/
def messagesIn : List (Event (LogResp μ Resp)) → List μ
  | [] => []
  | ⟨.call _, _⟩ :: tr => messagesIn tr
  | ⟨.log message, _⟩ :: tr => message :: messagesIn tr

namespace Prog.Logs

variable {A : (op : Op) → Resp op → Prop} {M : μ → Prop} {p : Prog (LogResp μ Resp) ε α}
  {q : Prog Resp ε α} {P : Protocol Resp σ} {s s' : σ} {out : Except ε α}

/-- Without its messages a run is one of the program without them. -/
theorem run {tr : List (Event (LogResp μ Resp))} (h : p.Logs A M q)
    (hA : ∀ s op r, P.answers s op r → A op r) (hrun : (P.withLog μ).Run s p tr s' out) :
    P.Run s q (callsIn tr) s' out ∧ ∀ message ∈ messagesIn tr, M message := by
  induction h generalizing s tr with
  | ret a =>
      cases hrun
      exact ⟨.ret a, List.forall_mem_nil _⟩
  | halt e =>
      cases hrun
      exact ⟨.halt e, List.forall_mem_nil _⟩
  | call _ ih =>
      cases hrun with
      | call hr hrun =>
          obtain ⟨hcalls, hmessages⟩ := ih _ (hA _ _ _ hr) hrun
          exact ⟨.call hr hcalls, hmessages⟩
  | log hmessage _ ih =>
      cases hrun with
      | call _ hrun =>
          obtain ⟨hcalls, hmessages⟩ := ih hrun
          exact ⟨hcalls, List.forall_mem_cons.mpr ⟨hmessage, hmessages⟩⟩

/-- Every run of the program without messages is one with them. -/
theorem exists_run {tr : List (Event Resp)} (h : p.Logs A M q)
    (hA : ∀ s op r, P.answers s op r → A op r) (hrun : P.Run s q tr s' out) :
    ∃ tr', (P.withLog μ).Run s p tr' s' out ∧ callsIn tr' = tr := by
  induction h generalizing s tr with
  | ret a =>
      cases hrun
      exact ⟨[], .ret a, rfl⟩
  | halt e =>
      cases hrun
      exact ⟨[], .halt e, rfl⟩
  | @call op _ _ _ ih =>
      cases hrun with
      | @call _ _ _ _ r _ _ hr hrun =>
          obtain ⟨tr', hrun', rfl⟩ := ih r (hA _ _ _ hr) hrun
          exact ⟨⟨.call op, r⟩ :: tr', .call (P := P.withLog μ) hr hrun', rfl⟩
  | @log message _ _ _ _ ih =>
      obtain ⟨tr', hrun', rfl⟩ := ih hrun
      exact ⟨⟨.log message, ()⟩ :: tr', .call trivial hrun', rfl⟩

end Prog.Logs

end Interaction
