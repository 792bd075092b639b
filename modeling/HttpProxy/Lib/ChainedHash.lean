import Mathlib.Data.List.Perm.Basic

/-!
# Chained hashing

A list of chains in which each item lies in the chain its index names.  Looking along that one
chain then finds what looking at all items would find, and moving the items over to other
chains, one by one, loses none.
-/

namespace ChainedHash

variable {α : Type*} {index : α → ℕ} {chains : List (List α)} {items : List α} {a : α} {i : ℕ}
  {p : α → Bool}

/-- Each item is in the chain its index names. -/
def Placed (index : α → ℕ) (chains : List (List α)) : Prop :=
  ∀ i chain, chains[i]? = some chain → ∀ a ∈ chain, index a = i

/-- A new item comes to the head of its chain. -/
def place (index : α → ℕ) (chains : List (List α)) (a : α) : List (List α) :=
  chains.modify (index a) (a :: ·)

def chainAt (chains : List (List α)) (i : ℕ) : List α := chains[i]?.getD []

@[simp] theorem length_place : (place index chains a).length = chains.length :=
  List.length_modify ..

theorem placed_replicate (index : α → ℕ) (n : ℕ) : Placed index (List.replicate n []) := by
  intro i chain hchain a ha
  obtain rfl := List.eq_of_mem_replicate (List.mem_of_getElem? hchain)
  simp at ha

theorem Placed.place (h : Placed index chains) (a : α) : Placed index (place index chains a) := by
  intro i chain hchain b hb
  by_cases hi : index a = i
  · subst hi
    rw [ChainedHash.place, List.getElem?_modify_eq] at hchain
    obtain ⟨old, hold, rfl⟩ := Option.map_eq_some_iff.mp hchain
    rcases List.mem_cons.mp hb with rfl | hb
    · rfl
    · exact h _ old hold b hb
  · rw [ChainedHash.place, List.getElem?_modify_ne _ _ hi] at hchain
    exact h i chain hchain b hb

theorem flatten_modify_perm (h : i < chains.length) (a : α) :
    (chains.modify i (a :: ·)).flatten.Perm (a :: chains.flatten) := by
  induction chains generalizing i with
  | nil => simp at h
  | cons chain chains ih =>
      cases i with
      | zero => simp
      | succ i =>
          rw [List.modify_succ_cons, List.flatten_cons, List.flatten_cons]
          exact ((ih (by simpa using h)).append_left chain).trans List.perm_middle

/-- Placing an item adds it to what the chains hold, and nothing else. -/
theorem flatten_place_perm (h : index a < chains.length) :
    (place index chains a).flatten.Perm (a :: chains.flatten) :=
  flatten_modify_perm h a

/-! ## Moving all items over -/

theorem Placed.foldl (h : Placed index chains) (items : List α) :
    Placed index (items.foldl (ChainedHash.place index) chains) := by
  induction items generalizing chains with
  | nil => exact h
  | cons a items ih => exact ih (h.place a)

@[simp] theorem length_foldl_place (items : List α) :
    (items.foldl (place index) chains).length = chains.length := by
  induction items generalizing chains with
  | nil => rfl
  | cons a items ih => rw [List.foldl_cons, ih, length_place]

theorem flatten_foldl_perm (h : ∀ a ∈ items, index a < chains.length) :
    (items.foldl (place index) chains).flatten.Perm (items ++ chains.flatten) := by
  induction items generalizing chains with
  | nil => simp
  | cons a items ih =>
      rw [List.forall_mem_cons] at h
      have hrest : ∀ b ∈ items, index b < (place index chains a).length := by simpa using h.2
      exact ((ih hrest).trans ((flatten_place_perm h.1).append_left items)).trans
        List.perm_middle

/-! ## Looking along one chain -/

theorem Placed.mem_chainAt_iff (h : Placed index chains) (hi : index a = i) :
    a ∈ chainAt chains i ↔ a ∈ chains.flatten := by
  constructor
  · intro ha
    unfold chainAt at ha
    cases hchain : chains[i]? with
    | none => simp [hchain] at ha
    | some chain =>
        rw [hchain] at ha
        exact List.mem_flatten.mpr ⟨chain, List.mem_of_getElem? hchain, ha⟩
  · intro ha
    obtain ⟨chain, hmem, ha⟩ := List.mem_flatten.mp ha
    obtain ⟨j, hj⟩ := List.mem_iff_getElem?.mp hmem
    obtain rfl : i = j := hi.symm.trans (h j chain hj a ha)
    simpa [chainAt, hj] using ha

/-- One chain has no match if and only if there is none at all. -/
theorem Placed.find?_eq_none_iff (h : Placed index chains) (hp : ∀ a, p a = true → index a = i) :
    (chainAt chains i).find? p = none ↔ ∀ a ∈ chains.flatten, p a = false := by
  rw [List.find?_eq_none]
  constructor
  · intro hnone a ha
    cases hpa : p a with
    | false => rfl
    | true => exact absurd hpa (hnone a ((h.mem_chainAt_iff (hp a hpa)).mpr ha))
  · intro hall a ha hpa
    rw [hall a ((h.mem_chainAt_iff (hp a hpa)).mp ha)] at hpa
    simp at hpa

/-- What is found matches and is held. -/
theorem Placed.of_find?_eq_some (h : Placed index chains) (hp : ∀ a, p a = true → index a = i)
    (hfound : (chainAt chains i).find? p = some a) : a ∈ chains.flatten ∧ p a = true := by
  have hpa := List.find?_some hfound
  exact ⟨(h.mem_chainAt_iff (hp a hpa)).mp (List.mem_of_find?_eq_some hfound), hpa⟩

end ChainedHash
