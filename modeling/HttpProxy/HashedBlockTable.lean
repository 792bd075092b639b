import HttpProxy.BlockedLines
import HttpProxy.UthashMap

/-!
# The block table on uthash

`block-table.c` and `load_block_list` over the table that the macros of `uthash.h` keep.  It
answers as the list of keys does by which the workers' model looks names up.
-/

namespace HttpProxy

open CString Fallible

/-- What the `content` of a block table points to; an element is its name field. -/
abbrev HashedBlockTable := Option (UtHashTable (List UInt8))

section

variable (hashFunction : List UInt8 → UInt32)

def hashedBlockTableCheck (content : HashedBlockTable) (name : List UInt8) : Bool :=
  (hashFindStr hashFunction content name).isSome

/-- `block_table_add`; `HASH_ADD_STR` takes the length of the name as it is stored. -/
def hashedBlockTableAdd (content : HashedBlockTable) (name : List UInt8) (field : NameField) :
    Except Fault HashedBlockTable :=
  match hashFindStr hashFunction content name with
  | some _ => .ok content
  | none =>
      let stored := strncpy field.val name (maxNameLength - 1)
      if 0 ∈ stored then .ok (some (hashAddStr hashFunction content (cstr stored 0) stored))
      else .error .outOfBounds

/-- The loop of `load_block_list` over any table with any way to add a name. -/
def loadLoopWith {τ : Type} (add : τ → List UInt8 → NameField → Except Fault τ)
    (fields : ℕ → NameField) : ℕ → ℕ → List UInt8 → τ → Except Fault τ
  | 0, _, _, _ => .error .outOfFuel
  | fuel + 1, n, file, table =>
      match fgets maxUrlSize file with
      | none => .ok table
      | some (line, rest) => do
          let table ← add table (cstr (cutNewLine (line ++ [0])) 0) (fields n)
          loadLoopWith add fields fuel (n + 1) rest table

/-- `load_block_list` on the table of `block_table_create`, whose content is NULL. -/
def hashedLoadBlockList (fields : ℕ → NameField) (blockListFile : Option (List UInt8)) :
    Except Fault (Status × HashedBlockTable) :=
  match blockListFile with
  | none => .ok (.fail, none)
  | some file => do
      let content ← loadLoopWith (hashedBlockTableAdd hashFunction) fields (file.length + 1) 0
        file none
      .ok (.success, content)

end

variable {hashFunction : List UInt8 → UInt32} {fields : ℕ → NameField} {content : HashedBlockTable}
  {table : BlockTable} {name : List UInt8} {field : NameField}

theorem loadLoop_eq_loadLoopWith (fields : ℕ → NameField) (fuel n : ℕ) (file : List UInt8)
    (table : BlockTable) :
    loadLoop fields fuel n file table = loadLoopWith blockTableAdd fields fuel n file table := by
  induction fuel generalizing n file table with
  | zero => rfl
  | succ fuel ih =>
      rw [loadLoop, loadLoopWith]
      cases fgets maxUrlSize file with
      | none => rfl
      | some lineRest => exact bind_congr fun table ↦ ih (n + 1) lineRest.2 table

/-- Loops over two tables stay related if adding a name keeps them so. -/
theorem loadLoopWith_matches {τ τ₂ : Type} {R : τ → τ₂ → Prop}
    {add : τ → List UInt8 → NameField → Except Fault τ}
    {add₂ : τ₂ → List UInt8 → NameField → Except Fault τ₂}
    (hadd : ∀ t t₂ name field, R t t₂ → Matches R (add t name field) (add₂ t₂ name field))
    (fields : ℕ → NameField) (fuel n : ℕ) (file : List UInt8) {t : τ} {t₂ : τ₂} (h : R t t₂) :
    Matches R (loadLoopWith add fields fuel n file t)
      (loadLoopWith add₂ fields fuel n file t₂) := by
  induction fuel generalizing n file t t₂ with
  | zero => exact .error _
  | succ fuel ih =>
      rw [loadLoopWith, loadLoopWith]
      cases fgets maxUrlSize file with
      | none => exact .ok h
      | some lineRest => exact (hadd _ _ _ _ h).bind fun _ _ h' ↦ ih (n + 1) lineRest.2 h'

/-- The uthash table holds the keys of the list, the last one first. -/
structure HashesTo (hashFunction : List UInt8 → UInt32) (content : HashedBlockTable)
    (table : BlockTable) : Prop where
  wellFormed : HeadWellFormed hashFunction content
  keys : (hashEntries content).map Prod.fst = table.reverse

theorem HashesTo.check (h : HashesTo hashFunction content table) (name : List UInt8) :
    hashedBlockTableCheck hashFunction content name = blockTableCheck table name := by
  have hnone := (hashFindStr_entries h.wellFormed name).1
  rw [h.keys, List.mem_reverse] at hnone
  rw [Bool.eq_iff_iff, hashedBlockTableCheck, blockTableCheck, Option.isSome_iff_ne_none, Ne, hnone,
    not_not, List.contains_iff_mem]

theorem HashesTo.add (h : HashesTo hashFunction content table) (name : List UInt8)
    (field : NameField) :
    Matches (HashesTo hashFunction) (hashedBlockTableAdd hashFunction content name field)
      (blockTableAdd table name field) := by
  have hcheck := h.check name
  rw [hashedBlockTableCheck] at hcheck
  rw [hashedBlockTableAdd, blockTableAdd, ← hcheck]
  cases hashFindStr hashFunction content name with
  | some element => exact .ok h
  | none =>
      simp only [Option.isSome_none, Bool.false_eq_true, if_false]
      split
      · refine .ok ⟨h.wellFormed.addStr _ _, ?_⟩
        simp [h.keys]
      · exact .error _

/-- Loading the block list into the uthash table comes to the same end as loading it into the list
of keys, and both answer every look-up alike. -/
theorem hashedLoadBlockList_eq (hashFunction : List UInt8 → UInt32) (fields : ℕ → NameField)
    (blockListFile : Option (List UInt8)) :
    (hashedLoadBlockList hashFunction fields blockListFile).map
        (fun loaded ↦ (loaded.1, hashedBlockTableCheck hashFunction loaded.2)) =
      (loadBlockList fields blockListFile []).map
        (fun loaded ↦ (loaded.1, blockTableCheck loaded.2)) := by
  have hempty : HashesTo hashFunction none [] := ⟨headWellFormed_none, rfl⟩
  cases blockListFile with
  | none =>
      have hsame : hashedBlockTableCheck hashFunction none = blockTableCheck [] :=
        funext hempty.check
      exact congrArg (fun check ↦ Except.ok (Status.fail, check)) hsame
  | some file =>
      have hloop := loadLoopWith_matches (fun _ _ name field h ↦ HashesTo.add h name field) fields
        (file.length + 1) 0 file hempty
      rw [← loadLoop_eq_loadLoopWith] at hloop
      refine Matches.map_eq (R := fun loaded loaded₂ ↦ loaded.1 = loaded₂.1 ∧
        HashesTo hashFunction loaded.2 loaded₂.2) (hloop.bind fun _ _ h ↦ .ok ⟨rfl, h⟩) ?_
      intro loaded loaded₂ hrelated
      rw [hrelated.1, funext hrelated.2.check]

end HttpProxy
