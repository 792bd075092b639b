import HttpProxy.Lib.CriticalSection
import HttpProxy.Lib.CString
import HttpProxy.Constants

/-!
# The log

`thread-safe-file.c`: any number of threads write messages to one stream, each under the mutex of
the stream.  Nothing is assumed of how `fprintf` cuts a message, so its bytes go out one by one.
-/

namespace HttpProxy

open CString CriticalSection Transition

/-- `safe_write` between lock and unlock, on the bytes the stream has taken. -/
def safeWrite (toWrite : List UInt8) : Body (List UInt8) Unit where
  locals := ()
  steps := (cstr toWrite 0).map fun c p ↦ (p.1 ++ [c], ())

/-- Threads that call `safe_write` on the file of `safe_init`. -/
def safeFile : System (State ℕ (List UInt8) (List UInt8) Unit) ℕ := system safeWrite []

abbrev LogState := State ℕ (List UInt8) (List UInt8) Unit

/-- The messages that have gone out, one after the other. -/
def written (returned : List (ℕ × List UInt8 × Unit)) : List UInt8 :=
  returned.flatMap fun entry ↦ cstr entry.2.1 0

theorem runSteps_putBytes (bytes : List UInt8) (p : List UInt8 × Unit) :
    runSteps (bytes.map fun c p ↦ (p.1 ++ [c], ())) p = (p.1 ++ bytes, ()) := by
  induction bytes generalizing p with
  | nil => simp [runSteps]
  | cons c bytes ih =>
      have h := ih (p.1 ++ [c], ())
      rw [runSteps] at h ⊢
      rw [List.map_cons, List.foldl_cons, h]
      simp

theorem serial_written {log : List (ℕ × List UInt8 × Unit)} {stream : List UInt8}
    (h : Serial safeWrite [] log stream) : stream = written log := by
  induction h with
  | nil => rfl
  | snoc h t op ih =>
      rw [Body.run, safeWrite, runSteps_putBytes, ih]
      simp [written]

/-- The part of a message that has gone out is a prefix of it. -/
theorem done_putBytes {bytes : List UInt8}
    {done rest : List (List UInt8 × Unit → List UInt8 × Unit)}
    (h : bytes.map (fun c (p : List UInt8 × Unit) ↦ (p.1 ++ [c], ())) = done ++ rest) :
    ∃ part, part <+: bytes ∧ done = part.map fun c p ↦ (p.1 ++ [c], ()) := by
  obtain ⟨part, left, rfl, rfl, -⟩ := List.map_eq_append_iff.mp h
  exact ⟨part, List.prefix_append part left, rfl⟩

/-- The stream is a sequence of whole messages, with the beginning of one more while a thread is
writing it, and each thread's messages are in the order in which it wrote them. -/
structure WholeMessages (s : LogState) : Prop where
  stream : ∃ part, s.shared = written s.returned ++ part ∧ (s.owner = none → part = []) ∧
    ∀ t, s.owner = some t → ∃ message, (s.pc t).pending = [message] ∧ part <+: cstr message 0
  inOrder : ∀ t, callsOf t s.called = returnsOf t s.returned ++ (s.pc t).pending

/-- However the threads interleave, no message is cut by another one, lost or repeated. -/
theorem log_wholeMessages {s : LogState} (hs : safeFile.Reachable s) : WholeMessages s := by
  obtain ⟨⟨base, hserial, hheld⟩, hinOrder⟩ := serialized_reachable hs
  refine ⟨?_, hinOrder⟩
  cases hheld with
  | free howner hshared =>
      exact ⟨[], by rw [hshared, serial_written hserial, List.append_nil], fun _ ↦ rfl,
        fun t ht ↦ by simp [howner] at ht⟩
  | taken t message locals done rest howner hpc hsteps hshared =>
      obtain ⟨part, hpart, rfl⟩ := done_putBytes hsteps
      rw [runSteps_putBytes] at hshared
      refine ⟨part, ?_, fun hfree ↦ by simp [howner] at hfree, fun u hu ↦ ?_⟩
      · rw [← serial_written hserial]
        exact (Prod.mk.inj hshared).1.symm
      · obtain rfl : t = u := Option.some.inj (howner.symm.trans hu)
        exact ⟨message, by rw [hpc]; rfl, hpart⟩

theorem log_wholeMessages_oneMessage :
    ∃ s, safeFile.Reachable s ∧ s.shared = text "up" ∧ WholeMessages s := by
  have hinit : safeFile.Reachable ⟨[], none, fun _ ↦ .idle, [], []⟩ := .init rfl
  have hcall := hinit.step (a := 0) (.call (text "up") rfl)
  have hlock := hcall.step (a := 0) (.lock (text "up") rfl rfl)
  have hu := hlock.step (a := 0) (.act _ _ _ _ rfl)
  have hp := hu.step (a := 0) (.act _ _ _ _ rfl)
  have hunlock := hp.step (a := 0) (.unlock _ _ rfl)
  exact ⟨_, hunlock, rfl, log_wholeMessages hunlock⟩

end HttpProxy
