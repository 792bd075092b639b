import Mathlib.Data.List.GetD
import HttpProxy.Lib.CString

/-!
# Strings up to letter case

Two strings have the same letters if they are equal once their letters are lowered.  Bytes that
are no letters stand in the same places then, and what `string.h` finds by them is found alike.
-/

namespace CString

def lower (s : List UInt8) : List UInt8 := s.map toLower

/-- The strings differ only in the case of their letters. -/
def SameLetters (s t : List UInt8) : Prop := lower s = lower t

instance (s t : List UInt8) : Decidable (SameLetters s t) :=
  inferInstanceAs (Decidable (lower s = lower t))

variable {s t : List UInt8} {c d : UInt8}

theorem toLower_toLower (c : UInt8) : toLower (toLower c) = toLower c := by
  have hall : ∀ k < 256, toLower (toLower (UInt8.ofNat k)) = toLower (UInt8.ofNat k) := by
    decide +kernel
  simpa using hall c.toNat c.toNat_lt

theorem toLower_of_lt (hc : c < 65) : toLower c = c := by
  apply if_neg
  intro hletter
  have hle := hletter.1
  simp only [UInt8.le_iff_toNat_le, UInt8.lt_iff_toNat_lt] at hc hle
  omega

/-- A byte below the letters is lowered only to itself, and only from itself. -/
theorem toLower_eq_iff (hd : d < 65) : toLower c = d ↔ c = d := by
  constructor
  · intro h
    exact toLower_eq_self_of_toLower_lt h hd
  · rintro rfl
    exact toLower_of_lt hd

theorem mem_lower_iff (hd : d < 65) : d ∈ lower s ↔ d ∈ s := by
  simp only [lower, List.mem_map, toLower_eq_iff hd, exists_eq_right]

@[simp] theorem lower_nil : lower [] = [] := rfl

@[simp] theorem lower_cons (c : UInt8) (s : List UInt8) : lower (c :: s) = toLower c :: lower s :=
  rfl

@[simp] theorem lower_append (s t : List UInt8) : lower (s ++ t) = lower s ++ lower t :=
  List.map_append

@[simp] theorem length_lower (s : List UInt8) : (lower s).length = s.length := List.length_map ..

@[simp] theorem lower_lower (s : List UInt8) : lower (lower s) = lower s := by
  simp [lower, toLower_toLower]

theorem getD_lower (s : List UInt8) (i : ℕ) : (lower s).getD i 0 = toLower (s.getD i 0) :=
  List.getD_map s 0 toLower

/-- What stands before a byte that is no letter is lowered with the rest. -/
theorem takeWhile_ne_lower (hd : d < 65) (s : List UInt8) :
    (lower s).takeWhile (· ≠ d) = lower (s.takeWhile (· ≠ d)) := by
  have hbyte : (fun c ↦ decide (c ≠ d)) ∘ toLower = fun c ↦ decide (c ≠ d) := by
    funext c
    simp [toLower_eq_iff hd]
  rw [lower, List.takeWhile_map, hbyte, lower]

theorem cstr_lower (s : List UInt8) : cstr (lower s) 0 = lower (cstr s 0) :=
  takeWhile_ne_lower (by decide) s

theorem dropWhile_ne_lower (hd : d < 65) (s : List UInt8) :
    (lower s).dropWhile (· != d) = lower (s.dropWhile (· != d)) := by
  have hbyte : (· != d) ∘ toLower = (· != d) := by
    funext c
    simp [bne, Bool.beq_eq_decide_eq, toLower_eq_iff hd]
  rw [lower, List.dropWhile_map, hbyte, lower]

theorem dropWhile_eq_lower (hd : d < 65) (s : List UInt8) :
    (lower s).dropWhile (· == d) = lower (s.dropWhile (· == d)) := by
  have hbyte : (· == d) ∘ toLower = (· == d) := by
    funext c
    simp [Bool.beq_eq_decide_eq, toLower_eq_iff hd]
  rw [lower, List.dropWhile_map, hbyte, lower]

/-- A comparison that ignores case sees no difference. -/
theorem strncasecmpEq_lower (s t : List UInt8) (n : ℕ) :
    strncasecmpEq (lower s) t n = strncasecmpEq s t n := by
  have htake : (lower s).take n = lower (s.take n) := (List.map_take).symm
  have hlower : (lower (s.take n)).map toLower = (s.take n).map toLower := lower_lower _
  rw [strncasecmpEq, strncasecmpEq, htake, hlower]

/-! ## Strings with the same letters -/

theorem SameLetters.mem_iff (h : SameLetters s t) (hd : d < 65) : d ∈ s ↔ d ∈ t := by
  rw [← mem_lower_iff hd, h, mem_lower_iff hd]

theorem SameLetters.append_right (h : SameLetters s t) (u : List UInt8) :
    SameLetters (s ++ u) (t ++ u) := by
  rw [SameLetters, lower_append, lower_append, h]

/-- Buffers with the same letters hold such strings. -/
theorem SameLetters.of_getD (h : ∀ i, toLower (s.getD i 0) = toLower (t.getD i 0)) :
    SameLetters (cstr s 0) (cstr t 0) := by
  rw [SameLetters, ← cstr_lower, ← cstr_lower, cstr_eq_iff]
  intro i _
  simp only [getD_lower, h]

end CString
