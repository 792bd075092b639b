import HttpProxy.HashedBlockTable
import HttpProxy.Lib.CriticalSection

/-!
# Concurrent use of the block table

Any number of threads call `block_table_add` and `block_table_check` on one table, each look-up
and each addition in the uthash table a step of its own.  Under the mutex of the table they act
as on a set of names.
-/

namespace HttpProxy

open CString CriticalSection Transition

/-- A name that is stored whole, with a NUL behind it. -/
structure ShortName where
  bytes : List UInt8
  short : bytes.length < maxNameLength - 1
  nul : 0 ∉ bytes

/-- A call, with what `malloc` leaves in the name of the new element. -/
inductive TableCall where
  | add (name : ShortName) (field : NameField)
  | check (name : List UInt8)

section

variable (hashFunction : List UInt8 → UInt32)

/-- `HASH_FIND_STR` into `found_element`. -/
def findElement (name : List UInt8) (p : HashedBlockTable × Option (List UInt8)) :
    HashedBlockTable × Option (List UInt8) :=
  (p.1, hashFindStr hashFunction p.1 name)

/-- `HASH_ADD_STR` of the new element, if none was found. -/
def addElement (element : List UInt8) (p : HashedBlockTable × Option (List UInt8)) :
    HashedBlockTable × Option (List UInt8) :=
  match p.2 with
  | none => (some (hashAddStr hashFunction p.1 (cstr element 0) element), p.2)
  | some _ => p

/-- The two functions between lock and unlock.  The element of `block_table_add` has been filled
before. -/
def tableBody : TableCall → Body HashedBlockTable (Option (List UInt8))
  | .add name field =>
      { locals := none
        steps := [findElement hashFunction name.bytes,
          addElement hashFunction (strncpy field.val name.bytes (maxNameLength - 1))] }
  | .check name =>
      { locals := none
        steps := [findElement hashFunction name] }

/-- Threads that use the table of `block_table_create`. -/
def tableSystem :
    System (State ℕ TableCall HashedBlockTable (Option (List UInt8))) ℕ :=
  system (tableBody hashFunction) none

end

variable {hashFunction : List UInt8 → UInt32} {content : HashedBlockTable}
  {log : List (ℕ × TableCall × Option (List UInt8))}

/-- The names that the calls of a log have added. -/
def addedNames (log : List (ℕ × TableCall × Option (List UInt8))) : List (List UInt8) :=
  log.filterMap fun entry ↦ match entry.2.1 with
    | .add name _ => some name.bytes
    | .check _ => none

@[simp] theorem addedNames_append (log log' : List (ℕ × TableCall × Option (List UInt8))) :
    addedNames (log ++ log') = addedNames log ++ addedNames log' :=
  List.filterMap_append

/-- The table has each added name once, and nothing else. -/
structure IsSet (hashFunction : List UInt8 → UInt32) (content : HashedBlockTable)
    (names : List (List UInt8)) : Prop where
  wellFormed : HeadWellFormed hashFunction content
  nodup : ((hashEntries content).map Prod.fst).Nodup
  mem_iff : ∀ name, name ∈ (hashEntries content).map Prod.fst ↔ name ∈ names

theorem IsSet.find_isSome {names : List (List UInt8)} (h : IsSet hashFunction content names)
    (name : List UInt8) : (hashFindStr hashFunction content name).isSome = true ↔ name ∈ names := by
  have hnone := (hashFindStr_entries h.wellFormed name).1
  rw [h.mem_iff] at hnone
  rw [Option.isSome_iff_ne_none, Ne, hnone, not_not]

/-- What a call does to a set: an addition puts its name in, and both find out whether the name
was there. -/
theorem IsSet.run {names : List (List UInt8)} (h : IsSet hashFunction content names)
    (call : TableCall) :
    IsSet hashFunction ((tableBody hashFunction call).run content).1
      (names ++ addedNames [(0, call, none)]) ∧
      ∀ name, call = .check name →
        (((tableBody hashFunction call).run content).2.isSome = true ↔ name ∈ names) := by
  cases call with
  | check name =>
      have hnames : names ++ addedNames [(0, .check name, none)] = names := List.append_nil _
      rw [hnames]
      refine ⟨h, ?_⟩
      rintro _ ⟨⟩
      exact h.find_isSome name
  | add name field =>
      refine ⟨?_, nofun⟩
      have hfound := h.find_isSome name.bytes
      have hstored : cstr (strncpy field.val name.bytes (maxNameLength - 1)) 0 = name.bytes := by
        rw [strncpy_short name.short, cstr_append_nul name.nul]
      have hnames : names ++ addedNames [(0, .add name field, none)] = names ++ [name.bytes] := rfl
      rw [hnames]
      simp only [tableBody, Body.run, runSteps, List.foldl_cons, List.foldl_nil, findElement,
        addElement]
      cases hfind : hashFindStr hashFunction content name.bytes with
      | some element =>
          rw [hfind] at hfound
          have hmem : name.bytes ∈ names := hfound.mp rfl
          refine ⟨h.wellFormed, h.nodup, fun key ↦ ?_⟩
          rw [h.mem_iff, List.mem_append, List.mem_singleton]
          exact ⟨.inl, fun hkey ↦ hkey.elim id fun hkey ↦ hkey ▸ hmem⟩
      | none =>
          rw [hfind] at hfound
          have hnew : name.bytes ∉ names := fun hmem ↦ by simpa using hfound.mpr hmem
          rw [hstored]
          refine ⟨h.wellFormed.addStr _ _, ?_, fun key ↦ ?_⟩
          · rw [hashEntries_hashAddStr, List.map_append, List.nodup_append]
            refine ⟨h.nodup, by simp, ?_⟩
            rintro key hkey _ hlast rfl
            obtain rfl : key = name.bytes := by simpa using hlast
            exact hnew ((h.mem_iff _).mp hkey)
          · rw [hashEntries_hashAddStr, List.map_append, List.mem_append, h.mem_iff,
              List.mem_append]
            rfl

/-- A serial execution leaves the set of the names it has added, and each check has answered for
the names added before it. -/
theorem serial_isSet (h : Serial (tableBody hashFunction) none log content) :
    IsSet hashFunction content (addedNames log) ∧
      ∀ before t name found after, log = before ++ (t, .check name, found) :: after →
        (found.isSome = true ↔ name ∈ addedNames before) := by
  induction h with
  | nil =>
      exact ⟨⟨headWellFormed_none, List.nodup_nil, fun name ↦ Iff.rfl⟩,
        fun before t name found after hlog ↦ by simp at hlog⟩
  | snoc h t call ih =>
      obtain ⟨hset, hchecks⟩ := ih
      obtain ⟨hnext, hcheck⟩ := hset.run call
      refine ⟨by rwa [addedNames_append], fun before u name found after hlog ↦ ?_⟩
      rcases split_concat hlog with ⟨after', hold⟩ | ⟨rfl, hlast⟩
      · exact hchecks before u name found after' hold
      · obtain ⟨-, hcall⟩ := Prod.mk.inj hlast
        obtain ⟨rfl, rfl⟩ := Prod.mk.inj hcall
        exact hcheck name rfl

/-- Whatever the interleaving: a check answers 1 if and only if an addition of that name had the
mutex before it, and while nobody has the mutex the table holds each added name once. -/
theorem blockTable_linearizes (hashFunction : List UInt8 → UInt32)
    {s : State ℕ TableCall HashedBlockTable (Option (List UInt8))}
    (hs : (tableSystem hashFunction).Reachable s) :
    (∀ before t name found after, s.returned = before ++ (t, .check name, found) :: after →
        (found.isSome = true ↔ name ∈ addedNames before)) ∧
      (s.owner = none → ((hashEntries s.shared).map Prod.fst).Nodup ∧
        ∀ name, hashedBlockTableCheck hashFunction s.shared name = true ↔
          name ∈ addedNames s.returned) ∧
      ∀ t, callsOf t s.called = returnsOf t s.returned ++ (s.pc t).pending := by
  obtain ⟨⟨base, hserial, hheld⟩, hinOrder⟩ := serialized_reachable hs
  obtain ⟨hset, hchecks⟩ := serial_isSet hserial
  refine ⟨hchecks, fun hfree ↦ ?_, hinOrder⟩
  cases hheld with
  | free _ hshared =>
      rw [hshared]
      exact ⟨hset.nodup, hset.find_isSome⟩
  | taken t call locals done rest howner => simp [hfree] at howner

theorem blockTable_linearizes_oneCheck :
    ∃ s, (tableSystem hashJen).Reachable s ∧ s.returned = [(0, .check [97], none)] ∧
      ∀ before t name found after, s.returned = before ++ (t, .check name, found) :: after →
        (found.isSome = true ↔ name ∈ addedNames before) := by
  have hinit : (tableSystem hashJen).Reachable ⟨none, none, fun _ ↦ .idle, [], []⟩ := .init rfl
  have hcall := hinit.step (a := 0) (.call (.check [97]) rfl)
  have hlock := hcall.step (a := 0) (.lock (.check [97]) rfl rfl)
  have hfind := hlock.step (a := 0) (.act _ _ _ _ rfl)
  have hunlock := hfind.step (a := 0) (.unlock _ _ rfl)
  exact ⟨_, hunlock, rfl, (blockTable_linearizes hashJen hunlock).1⟩

end HttpProxy
