import Mathlib.Data.List.TakeWhile
import Mathlib.Data.Int.Notation
import Mathlib.Tactic.Common

/-!
# Strings of C

A buffer is the list of its bytes and a pointer into it is an index.  The string at a
pointer runs up to the first NUL, and the functions of `string.h` are stated on it.
-/

namespace CString

/-- The string at index `p`. -/
def cstr (s : List UInt8) (p : ℕ) : List UInt8 := (s.drop p).takeWhile (· ≠ 0)

def strlen (s : List UInt8) (p : ℕ) : ℕ := (cstr s p).length

def lastIdxOf? (l : List UInt8) (c : UInt8) : Option ℕ :=
  (l.reverse.idxOf? c).map fun i ↦ l.length - 1 - i

/-- The first `c` at or after `p`; searching for NUL finds the end of the string. -/
def strchr (s : List UInt8) (p : ℕ) (c : UInt8) : Option ℕ :=
  if c = 0 then some (p + strlen s p) else ((cstr s p).idxOf? c).map (p + ·)

/-- The last `c` at or after `p`. -/
def strrchr (s : List UInt8) (p : ℕ) (c : UInt8) : Option ℕ :=
  if c = 0 then some (p + strlen s p) else (lastIdxOf? (cstr s p) c).map (p + ·)

def toLower (c : UInt8) : UInt8 := if 65 ≤ c ∧ c ≤ 90 then c + 32 else c

/-- `strncmp(a, b, n) == 0` for the strings `a` and `b`. -/
def strncmpEq (a b : List UInt8) (n : ℕ) : Bool := a.take n == b.take n

/-- `strncasecmp(a, b, n) == 0` for the strings `a` and `b`. -/
def strncasecmpEq (a b : List UInt8) (n : ℕ) : Bool :=
  (a.take n).map toLower == (b.take n).map toLower

/-- `strncpy`: `n` bytes of `dst` are overwritten, with NULs once `src` is used up. -/
def strncpy (dst src : List UInt8) (n : ℕ) : List UInt8 :=
  src.take n ++ List.replicate (n - src.length) 0 ++ dst.drop n

def isSpace (c : UInt8) : Bool := c == 32 || (9 ≤ c && c ≤ 13)

def isDigit (c : UInt8) : Bool := 48 ≤ c && c ≤ 57

/-- The number written by a list of decimal digits. -/
def digitsValue (digits : List UInt8) : ℕ :=
  digits.foldl (fun value c ↦ 10 * value + (c.toNat - 48)) 0

/-- The number `atoi` reads, before it is stored in an `int`. -/
def atoi (s : List UInt8) : ℤ :=
  match s.dropWhile isSpace with
  | 45 :: rest => -(digitsValue (rest.takeWhile isDigit) : ℤ)
  | 43 :: rest => digitsValue (rest.takeWhile isDigit)
  | rest => digitsValue (rest.takeWhile isDigit)

/-! ## Positions in a list -/

variable {s t l r : List UInt8} {c : UInt8} {p k i : ℕ}

theorem idxOf?_append_cons (hc : c ∉ l) : (l ++ c :: r).idxOf? c = some l.length := by
  induction l with
  | nil => simp [List.idxOf?_cons]
  | cons a l ih =>
      have ha : ¬a = c := by
        rintro rfl
        simp at hc
      have hl : c ∉ l := fun h ↦ hc (List.mem_cons_of_mem _ h)
      simp [List.idxOf?_cons, ha, ih hl]

theorem idxOf?_eq_none (hc : c ∉ l) : l.idxOf? c = none := by simpa using hc

theorem split_of_idxOf? (h : l.idxOf? c = some i) :
    ∃ a b, l = a ++ c :: b ∧ c ∉ a ∧ a.length = i := by
  have hmem : c ∈ l := by
    rw [← List.isSome_idxOf?]
    simp [h]
  obtain ⟨a, b, hl, ha⟩ := List.eq_append_cons_of_mem hmem
  rw [hl, idxOf?_append_cons ha] at h
  exact ⟨a, b, hl, ha, by simpa using h⟩

theorem lastIdxOf?_append_cons (hc : c ∉ r) : lastIdxOf? (l ++ c :: r) c = some l.length := by
  have hr : c ∉ r.reverse := by simpa using hc
  have h : (l ++ c :: r).reverse = r.reverse ++ c :: l.reverse := by simp
  rw [lastIdxOf?, h, idxOf?_append_cons hr]
  simp

theorem lastIdxOf?_eq_none (hc : c ∉ l) : lastIdxOf? l c = none := by
  simp [lastIdxOf?, hc]

theorem exists_lastIdxOf? (hc : c ∈ l) : ∃ i, lastIdxOf? l c = some i := by
  obtain ⟨i, hi⟩ := Option.isSome_iff_exists.mp (List.isSome_idxOf?.mpr (List.mem_reverse.mpr hc))
  exact ⟨_, by rw [lastIdxOf?, hi]; rfl⟩

theorem split_of_lastIdxOf? (h : lastIdxOf? l c = some i) :
    ∃ a b, l = a ++ c :: b ∧ c ∉ b ∧ a.length = i := by
  obtain ⟨j, hj, -⟩ := Option.map_eq_some_iff.mp h
  obtain ⟨b, a, hl, hb, -⟩ := split_of_idxOf? hj
  have hl' : l = a.reverse ++ c :: b.reverse := by
    rw [← List.reverse_reverse l, hl]
    simp
  have hb' : c ∉ b.reverse := by simpa using hb
  rw [hl', lastIdxOf?_append_cons hb'] at h
  exact ⟨_, _, hl', hb', by simpa using h⟩

theorem first_split_unique {l' r' : List UInt8} (h : l ++ c :: r = l' ++ c :: r') (hl : c ∉ l)
    (hl' : c ∉ l') : l = l' ∧ r = r' := by
  have hlen : l.length = l'.length := by
    have := congrArg (List.idxOf? c) h
    rwa [idxOf?_append_cons hl, idxOf?_append_cons hl', Option.some_inj] at this
  obtain ⟨h1, h2⟩ := List.append_inj h hlen
  exact ⟨h1, List.tail_eq_of_cons_eq h2⟩

theorem last_split_unique {l' r' : List UInt8} (h : l ++ c :: r = l' ++ c :: r') (hr : c ∉ r)
    (hr' : c ∉ r') : l = l' ∧ r = r' := by
  have hlen : l.length = l'.length := by
    have := congrArg (lastIdxOf? · c) h
    simpa only [lastIdxOf?_append_cons hr, lastIdxOf?_append_cons hr', Option.some_inj] using this
  obtain ⟨h1, h2⟩ := List.append_inj h hlen
  exact ⟨h1, List.tail_eq_of_cons_eq h2⟩

/-! ## Runs of bytes that stop before a given one -/

theorem takeWhile_append_cons_of_neg {α : Type*} {q : α → Bool} {l r : List α} {c : α}
    (hc : q c = false) : (l ++ c :: r).takeWhile q = l.takeWhile q := by
  induction l with
  | nil => simp [hc]
  | cons a l ih => simp [List.takeWhile_cons, ih]

theorem takeWhile_ne_of_notMem (hc : c ∉ l) : l.takeWhile (· ≠ c) = l := by
  refine List.takeWhile_eq_self_iff.mpr fun a ha ↦ ?_
  simp only [decide_eq_true_eq]
  rintro rfl
  exact hc ha

/-- What stands before the first `c`. -/
theorem takeWhile_ne_append_cons (hc : c ∉ l) : (l ++ c :: r).takeWhile (· ≠ c) = l := by
  rw [takeWhile_append_cons_of_neg (by simp), takeWhile_ne_of_notMem hc]

theorem dropWhile_append_cons_of_neg {α : Type*} {q : α → Bool} {l r : List α} {c : α}
    (hc : q c = false) : (l ++ c :: r).dropWhile q = l.dropWhile q ++ c :: r := by
  induction l with
  | nil => simp [hc]
  | cons a l ih =>
      simp only [List.cons_append, List.dropWhile_cons, ih]
      split <;> rfl

theorem length_takeWhile_add_dropWhile {α : Type*} (q : α → Bool) (l : List α) :
    (l.takeWhile q).length + (l.dropWhile q).length = l.length := by
  rw [← List.length_append, List.takeWhile_append_dropWhile]

/-! ## The string at a pointer -/

theorem cstr_append (h : 0 ∉ t) (rest : List UInt8) : cstr (t ++ rest) 0 = t ++ cstr rest 0 := by
  have hall : ∀ a ∈ t, decide (a ≠ 0) = true := by
    intro a ha
    simp only [decide_eq_true_eq]
    rintro rfl
    exact h ha
  simp only [cstr, List.drop_zero]
  exact List.takeWhile_append_of_pos hall

theorem cstr_append_nul (h : 0 ∉ t) (rest : List UInt8) : cstr (t ++ 0 :: rest) 0 = t := by
  rw [cstr_append h]
  simp [cstr]

theorem nul_notMem_cstr (s : List UInt8) (p : ℕ) : 0 ∉ cstr s p := by
  intro hmem
  simpa using List.mem_takeWhile_imp hmem

/-- The NUL that ends the string stands in the buffer if there is one at all. -/
theorem getElem?_length_cstr (h : 0 ∈ s) : s[(cstr s 0).length]? = some 0 := by
  obtain ⟨before, after, rfl, hbefore⟩ := List.eq_append_cons_of_mem h
  rw [cstr_append_nul hbefore, List.getElem?_append_right le_rfl, Nat.sub_self,
    List.getElem?_cons_zero]

/-- Moving a pointer along its string drops bytes from the string. -/
theorem cstr_add (s : List UInt8) (p k : ℕ) (h : k ≤ (cstr s p).length) :
    cstr s (p + k) = (cstr s p).drop k := by
  simp only [cstr, ← List.drop_drop] at h ⊢
  generalize s.drop p = u at h ⊢
  induction k generalizing u with
  | zero => simp
  | succ k ih =>
      cases u with
      | nil => simp
      | cons a u =>
          by_cases ha : a = 0
          · simp [ha] at h
          · simp only [ne_eq, ha, not_false_eq_true, decide_true, List.takeWhile_cons_of_pos,
              List.length_cons, Nat.add_le_add_iff_right, List.drop_succ_cons] at h ⊢
            exact ih u h

theorem cstr_add_of_append (h : cstr s p = l ++ r) : cstr s (p + l.length) = r := by
  rw [cstr_add s p l.length (by simp [h]), h]
  simp

theorem cstr_append_right (a s : List UInt8) (p : ℕ) : cstr (a ++ s) (a.length + p) = cstr s p := by
  simp [cstr]

theorem strchr_of_ne_zero (hc : c ≠ 0) :
    strchr s p c = ((cstr s p).idxOf? c).map (p + ·) := by
  simp [strchr, hc]

theorem strrchr_of_ne_zero (hc : c ≠ 0) :
    strrchr s p c = (lastIdxOf? (cstr s p) c).map (p + ·) := by
  simp [strrchr, hc]

theorem cstr_after (h : cstr s p = l ++ c :: r) : cstr s (p + l.length + 1) = r := by
  have := cstr_add_of_append (l := l ++ [c]) (r := r) (by simpa using h)
  simpa [Nat.add_assoc] using this

theorem strchr_of_append_cons (hc : c ≠ 0) (h : cstr s p = l ++ c :: r) (hl : c ∉ l) :
    strchr s p c = some (p + l.length) := by
  rw [strchr_of_ne_zero hc, h, idxOf?_append_cons hl]
  rfl

theorem strchr_eq_none (hc : c ≠ 0) (h : c ∉ cstr s p) : strchr s p c = none := by
  rw [strchr_of_ne_zero hc, idxOf?_eq_none h]
  rfl

/-- The strings that start two buffers are equal, byte by byte up to the first NUL. -/
def SameString (a b : ℕ → UInt8) : Prop := ∀ i, (∀ j < i, a j ≠ 0) → a i = b i

theorem sameString_succ {a b : ℕ → UInt8} :
    SameString a b ↔ a 0 = b 0 ∧ (a 0 ≠ 0 → SameString (fun i ↦ a (i + 1)) fun i ↦ b (i + 1)) := by
  constructor
  · intro h
    refine ⟨h 0 (by simp), fun hne i hi ↦ h (i + 1) fun j hj ↦ ?_⟩
    cases j with
    | zero => exact hne
    | succ j => exact hi j (by omega)
  · rintro ⟨hzero, hrest⟩ i hi
    cases i with
    | zero => exact hzero
    | succ i => exact hrest (hi 0 (by omega)) i fun j hj ↦ hi (j + 1) (by omega)

theorem cstr_cons (c : UInt8) (s : List UInt8) :
    cstr (c :: s) 0 = if c = 0 then [] else c :: cstr s 0 := by
  by_cases hc : c = 0 <;> simp [cstr, hc]

theorem cstr_eq_iff : cstr s 0 = cstr t 0 ↔ SameString (s.getD · 0) (t.getD · 0) := by
  induction s generalizing t with
  | nil =>
      rw [sameString_succ]
      cases t with
      | nil => simp
      | cons d t =>
          rw [cstr_cons]
          rcases eq_or_ne d 0 with rfl | hd
          · simp [cstr]
          · simp [cstr, hd, hd.symm]
  | cons c s ih =>
      rw [sameString_succ]
      cases t with
      | nil =>
          rw [cstr_cons]
          by_cases hc : c = 0 <;> simp [hc, cstr]
      | cons d t =>
          rw [cstr_cons, cstr_cons]
          simp only [List.getD_cons_zero, List.getD_cons_succ, ← ih]
          rcases eq_or_ne c 0 with rfl | hc
          · rcases eq_or_ne d 0 with rfl | hd
            · simp
            · simp [hd, hd.symm]
          · rcases eq_or_ne d 0 with rfl | hd
            · simp [hc]
            · simp [hc, hd]

theorem cstr_eq_self (h : 0 ∉ t) : cstr t 0 = t := by simpa [cstr] using cstr_append h []

/-- A buffer with the bytes of a text, and NULs after them, holds that text. -/
theorem cstr_of_getD (h : (s.getD · 0) = (t.getD · 0)) (ht : 0 ∉ t) : cstr s 0 = t := by
  rw [cstr_eq_iff.mpr fun i _ ↦ congrFun h i, cstr_eq_self ht]

/-- The bytes of the string stand before the first NUL. -/
theorem mem_cstr_iff :
    c ∈ cstr s 0 ↔ ∃ i, s.getD i 0 = c ∧ c ≠ 0 ∧ ∀ j < i, s.getD j 0 ≠ 0 := by
  induction s with
  | nil => simp +contextual [cstr]
  | cons d s ih =>
      rw [cstr_cons]
      constructor
      · intro hc
        split at hc
        next => simp at hc
        next hd =>
          rcases List.mem_cons.mp hc with rfl | hc
          · exact ⟨0, rfl, hd, by simp⟩
          · obtain ⟨i, hi, hne, hbefore⟩ := ih.mp hc
            refine ⟨i + 1, hi, hne, fun j hj ↦ ?_⟩
            cases j with
            | zero => exact hd
            | succ j => exact hbefore j (by omega)
      · rintro ⟨i, hi, hne, hbefore⟩
        cases i with
        | zero =>
            rw [List.getD_cons_zero] at hi
            rw [hi, if_neg hne]
            exact List.mem_cons_self
        | succ i =>
            have hd : d ≠ 0 := hbefore 0 (by omega)
            rw [if_neg hd]
            have hrest : ∀ j < i, s.getD j 0 ≠ 0 := fun j hj ↦ hbefore (j + 1) (by omega)
            exact List.mem_cons_of_mem _ (ih.mpr ⟨i, hi, hne, hrest⟩)

theorem forall_mem_cstr {P : UInt8 → Prop} (h : ∀ i, P (s.getD i 0)) : ∀ c ∈ cstr s 0, P c := by
  intro c hc
  obtain ⟨i, rfl, -⟩ := mem_cstr_iff.mp hc
  exact h i

theorem cleared_getD (n i : ℕ) : (List.replicate n (0 : UInt8)).getD i 0 = 0 := by
  rw [List.getD_eq_getElem?_getD, List.getElem?_replicate]
  split <;> rfl

/-! ## Comparisons -/

theorem strncmpEq_iff {a b : List UInt8} : strncmpEq a b b.length = true ↔ b <+: a := by
  rw [strncmpEq, beq_iff_eq, List.take_length, List.prefix_iff_eq_take, eq_comm]

theorem strncasecmpEq_iff {a b : List UInt8} :
    strncasecmpEq a b b.length = true ↔ b.map toLower <+: a.map toLower := by
  rw [strncasecmpEq, beq_iff_eq, List.take_length, List.prefix_iff_eq_take, List.length_map,
    List.map_take, eq_comm]

/-- A prefix without the byte `c` ends before it. -/
theorem prefix_append_cons_iff {α : Type*} {b l r : List α} {c : α} (hc : c ∉ b) :
    b <+: l ++ c :: r ↔ b <+: l := by
  refine ⟨fun h ↦ ?_, fun h ↦ h.trans (List.prefix_append _ _)⟩
  rcases le_total b.length l.length with hlen | hlen
  · exact List.prefix_of_prefix_length_le h (List.prefix_append _ _) hlen
  · obtain ⟨u, rfl⟩ := List.prefix_of_prefix_length_le (List.prefix_append l (c :: r)) h hlen
    cases u with
    | nil => simp
    | cons a u =>
        obtain ⟨v, hv⟩ := h
        simp only [List.append_assoc, List.cons_append, List.append_cancel_left_eq,
          List.cons.injEq] at hv
        exact absurd (by simp [hv.1]) hc

theorem strncasecmpEq_append_cons {a b : List UInt8} (hc : toLower c ∉ b.map toLower) :
    strncasecmpEq (a ++ c :: r) b b.length = strncasecmpEq a b b.length := by
  rw [Bool.eq_iff_iff, strncasecmpEq_iff, strncasecmpEq_iff, List.map_append, List.map_cons,
    prefix_append_cons_iff hc]

theorem toLower_eq_self_of_toLower_lt {d : UInt8} (h : toLower c = d) (hd : d < 65) : c = d := by
  unfold toLower at h
  split at h
  next hc =>
    rw [← h] at hd
    obtain ⟨h1, h2⟩ := hc
    simp only [UInt8.le_iff_toNat_le, UInt8.lt_iff_toNat_lt, UInt8.toNat_add, UInt8.reduceToNat]
      at h1 h2 hd
    omega
  next => exact h

/-! ## Numbers -/

theorem isSpace_of_isDigit (h : isDigit c = true) : isSpace c = false := by
  simp only [isDigit, isSpace, Bool.and_eq_true, decide_eq_true_eq, UInt8.le_iff_toNat_le,
    UInt8.reduceToNat, Bool.or_eq_false_iff, beq_eq_false_iff_ne, ne_eq, Bool.and_eq_false_imp,
    decide_eq_false_iff_not] at h ⊢
  refine ⟨?_, by omega⟩
  rintro rfl
  simp at h

theorem atoi_space_digits {digits : List UInt8} (hdigits : ∀ d ∈ digits, isDigit d = true)
    (hne : digits ≠ []) (hc : isDigit c = false) :
    atoi (32 :: (digits ++ c :: r)) = digitsValue digits := by
  obtain ⟨d, digits, rfl⟩ := List.exists_cons_of_ne_nil hne
  have hd : isDigit d = true := hdigits d (by simp)
  have hskip : (32 :: (d :: digits ++ c :: r)).dropWhile isSpace = d :: digits ++ c :: r := by
    rw [List.dropWhile_cons_of_pos (by decide), List.cons_append,
      List.dropWhile_cons_of_neg (by simp [isSpace_of_isDigit hd])]
  have htake : (d :: digits ++ c :: r).takeWhile isDigit = d :: digits := by
    rw [takeWhile_append_cons_of_neg hc]
    exact List.takeWhile_eq_self_iff.mpr hdigits
  rw [atoi, hskip]
  split
  next rest heq =>
    obtain ⟨rfl, -⟩ := List.cons.inj heq
    exact absurd hd (by decide)
  next rest heq =>
    obtain ⟨rfl, -⟩ := List.cons.inj heq
    exact absurd hd (by decide)
  next => rw [htake]

/-! ## Copies -/

theorem length_strncpy {dst src : List UInt8} {n : ℕ} (h : n ≤ dst.length) :
    (strncpy dst src n).length = dst.length := by
  simp only [strncpy, List.length_append, List.length_take, List.length_replicate,
    List.length_drop]
  omega

theorem drop_strncpy {dst src : List UInt8} {n k : ℕ} (h : n ≤ k) :
    (strncpy dst src n).drop k = dst.drop k := by
  have hlen : (src.take n ++ List.replicate (n - src.length) (0 : UInt8)).length = n := by
    simp only [List.length_append, List.length_take, List.length_replicate]
    omega
  rw [strncpy, List.drop_append, hlen, List.drop_eq_nil_of_le (by omega), List.nil_append,
    List.drop_drop]
  congr 1
  omega

theorem strncpy_append {dst src : List UInt8} {n : ℕ} (h : n ≤ src.length) :
    strncpy dst (src ++ r) n = strncpy dst src n := by
  have h1 : n - (src ++ r).length = 0 := by
    simp
    omega
  have h2 : n - src.length = 0 := by omega
  rw [strncpy, strncpy, h1, h2, List.take_append_of_le_length h]

end CString
