import HttpProxy.BlockList
import Mathlib.Data.List.Nodup

/-!
# The block table as a set of lines

`load_block_list` is to make the table the set of the lines of its file.  A line is added once,
under its own text, as long as it fits into the name of a table element together with a NUL;
and `block_table_add` writes no NUL behind a name that takes all the bytes it copies.
-/

namespace HttpProxy

open CString

variable {fields : ℕ → NameField} {field : NameField} {file line rest name : List UInt8}
  {lines : List (List UInt8)} {table table' : BlockTable} {fuel n : ℕ}

/-- The table is the set of the lines, and it has no key twice. -/
structure TableOfLines (file : List UInt8) (table : BlockTable) : Prop where
  found : ∀ name, blockTableCheck table name = true ↔ name ∈ blockListEntries file
  keys : table.Nodup

/-- What loading a file into an empty table is for. -/
def LoadsLines (fields : ℕ → NameField) (file : List UInt8) : Prop :=
  ∃ table, loadBlockList fields (some file) [] = .ok (.success, table) ∧ TableOfLines file table

/-- The name is ended within its field: by `strncpy` if it is short enough, and otherwise by
what `malloc` left in the one byte that is not copied to. -/
def NameFits (name : List UInt8) (field : NameField) : Prop :=
  name.length < maxNameLength - 1 ∨
    name.length = maxNameLength - 1 ∧ field.val[maxNameLength - 1]? = some 0

/-- Where a line first occurs, its name fits. -/
def LinesFit (fields : ℕ → NameField) (file : List UInt8) : Prop :=
  ∀ i line, (blockListEntries file)[i]? = some line → line ∉ (blockListEntries file).take i →
    NameFits line (fields i)

/-! ## The lines of a file -/

theorem mem_blockListEntries (h : line ∈ blockListEntries file) : line ⊆ file ∧ lf ∉ line := by
  induction file generalizing line with
  | nil => simp [blockListEntries] at h
  | cons c file ih =>
      unfold blockListEntries at h
      split at h
      next =>
        rcases List.mem_cons.mp h with rfl | h
        · simp
        · exact ⟨List.subset_cons_of_subset c (ih h).1, (ih h).2⟩
      next hc =>
        split at h
        next =>
          obtain rfl := List.mem_singleton.mp h
          exact ⟨by simp, by simpa using Ne.symm hc⟩
        next first lines hlines =>
          rw [hlines] at ih
          rcases List.mem_cons.mp h with rfl | h
          · obtain ⟨hsubset, hnewLine⟩ := ih List.mem_cons_self
            refine ⟨List.cons_subset_cons c hsubset, ?_⟩
            simp [hnewLine, Ne.symm hc]
          · obtain ⟨hsubset, hnewLine⟩ := ih (List.mem_cons_of_mem _ h)
            exact ⟨List.subset_cons_of_subset c hsubset, hnewLine⟩

theorem lineText_of_length_le (hnul : 0 ∉ file) (hline : line ∈ blockListEntries file)
    (hlength : line.length ≤ maxNameLength - 1) : LineText line := by
  obtain ⟨hsubset, hnewLine⟩ := mem_blockListEntries hline
  refine ⟨?_, fun h ↦ hnul (hsubset h), hnewLine⟩
  simp only [maxNameLength, maxUrlSize] at hlength ⊢
  omega

/-! ## Adding a name -/

/-- The key of an element is never longer than what is copied. -/
theorem blockTableAdd_keys (hkeys : ∀ key ∈ table, key.length ≤ maxNameLength - 1)
    (hadd : blockTableAdd table name field = .ok table') :
    ∀ key ∈ table', key.length ≤ maxNameLength - 1 := by
  unfold blockTableAdd at hadd
  split at hadd
  · cases hadd
    exact hkeys
  · simp only at hadd
    split at hadd
    next hended =>
      cases hadd
      refine List.forall_mem_cons.mpr ⟨?_, hkeys⟩
      have hlength : (strncpy field.val name (maxNameLength - 1)).length = field.val.length :=
        length_strncpy (field.property.ge.trans' (Nat.sub_le _ _))
      obtain ⟨key, after, hstored, hnul⟩ := List.eq_append_cons_of_mem hended
      rw [hstored, cstr_append_nul hnul]
      rw [hstored, field.property, List.length_append, List.length_cons] at hlength
      omega
    next => cases hadd

/-- A name that takes all the bytes that are copied is followed by what was there. -/
theorem strncpy_full (hlength : name.length = maxNameLength - 1) (field : NameField) :
    strncpy field.val name (maxNameLength - 1) = name ++ field.val.drop (maxNameLength - 1) := by
  rw [strncpy, hlength, Nat.sub_self, List.replicate_zero, List.append_nil,
    List.take_of_length_le hlength.le]

/-- A new name of at most that length is added exactly if it fits, and as it is. -/
theorem blockTableAdd_eq_ok_iff (hnul : 0 ∉ name) (hlength : name.length ≤ maxNameLength - 1) :
    blockTableAdd table name field = .ok table' ↔
      (name ∉ table → NameFits name field) ∧ table' = table.insert name := by
  unfold blockTableAdd
  by_cases hmem : name ∈ table
  · have hfound : blockTableCheck table name = true := by simpa [blockTableCheck] using hmem
    rw [if_pos hfound, List.insert_of_mem hmem]
    simp [hmem, eq_comm]
  · have hfound : ¬blockTableCheck table name = true := by simpa [blockTableCheck] using hmem
    rw [if_neg hfound, List.insert_of_not_mem hmem]
    simp only [hmem, not_false_eq_true, forall_const]
    rcases hlength.lt_or_eq with hshort | hfull
    · rw [strncpy_short hshort, if_pos (by simp), cstr_append_nul hnul]
      simp [NameFits, hshort, eq_comm]
    · obtain ⟨last, hlast⟩ : ∃ last, field.val.drop (maxNameLength - 1) = [last] := by
        rw [← List.length_eq_one_iff, List.length_drop, field.property]
        rfl
      have hfits : NameFits name field ↔ last = 0 := by
        have hget : field.val[maxNameLength - 1]? = some last := by
          rw [← Nat.add_zero (maxNameLength - 1), ← List.getElem?_drop, hlast]
          rfl
        simp [NameFits, hfull, hget]
      rw [strncpy_full hfull, hlast, hfits]
      by_cases hzero : last = 0
      · subst hzero
        rw [if_pos (by simp), cstr_append_nul hnul]
        simp [eq_comm]
      · rw [if_neg (by simp [hnul, Ne.symm hzero])]
        simp [hzero]

/-! ## The loop -/

theorem loadLoop_keys (hkeys : ∀ key ∈ table, key.length ≤ maxNameLength - 1)
    (hload : loadLoop fields fuel n file table = .ok table') :
    ∀ key ∈ table', key.length ≤ maxNameLength - 1 := by
  induction fuel generalizing n file table with
  | zero => cases hload
  | succ fuel ih =>
      simp only [loadLoop] at hload
      split at hload
      next =>
        cases hload
        exact hkeys
      next =>
        obtain ⟨added, hadd, hload⟩ := Fallible.bind_eq_ok.mp hload
        exact ih (blockTableAdd_keys hkeys hadd) hload

/-- `LinesFit` for the lines that are left, with the names that are there already. -/
def RestFits (fields : ℕ → NameField) (n : ℕ) (table : BlockTable) (lines : List (List UInt8)) :
    Prop :=
  ∀ i line, lines[i]? = some line → line ∉ table → line ∉ lines.take i →
    NameFits line (fields (n + i))

theorem restFits_nil (fields : ℕ → NameField) (n : ℕ) (table : BlockTable) :
    RestFits fields n table [] := by
  intro i line hline
  simp at hline

theorem restFits_cons :
    RestFits fields n table (line :: lines) ↔
      (line ∉ table → NameFits line (fields n)) ∧
        RestFits fields (n + 1) (table.insert line) lines := by
  constructor
  · intro h
    refine ⟨fun hnew ↦ h 0 line rfl hnew (by simp), fun i other hother hnew hfirst ↦ ?_⟩
    rw [List.mem_insert_iff, not_or] at hnew
    have hfits := h (i + 1) other hother hnew.2 (by simp [hnew.1, hfirst])
    rwa [← Nat.add_assoc, Nat.add_right_comm] at hfits
  · rintro ⟨hfirst, hrest⟩ i other hother hnew hseen
    cases i with
    | zero =>
        obtain rfl : line = other := by simpa using hother
        exact hfirst hnew
    | succ i =>
        rw [List.take_succ_cons, List.mem_cons, not_or] at hseen
        have hinsert : other ∉ table.insert line := by simp [hseen.1, hnew]
        have hfits := hrest i other hother hinsert hseen.2
        rwa [Nat.add_right_comm, Nat.add_assoc] at hfits

/-- With lines that can be keys the loop adds each of them, if they fit. -/
theorem loadLoop_eq_ok_iff (hfuel : file.length < fuel)
    (htexts : ∀ line ∈ blockListEntries file, LineText line)
    (hlength : ∀ line ∈ blockListEntries file, line.length ≤ maxNameLength - 1) :
    loadLoop fields fuel n file table = .ok table' ↔
      RestFits fields n table (blockListEntries file) ∧
        table' = (blockListEntries file).reverse ∪ table := by
  induction fuel generalizing n file table with
  | zero => omega
  | succ fuel ih =>
      by_cases hne : file = []
      · subst hne
        simp [loadLoop, fgets, blockListEntries, restFits_nil, eq_comm]
      · obtain ⟨line, rest, hlines, hshorter, hround⟩ :=
          loadLoop_succ hne htexts fields fuel n table
        rw [hlines] at htexts hlength
        obtain ⟨htext, hrestTexts⟩ := List.forall_mem_cons.mp htexts
        obtain ⟨hfirst, hrestLength⟩ := List.forall_mem_cons.mp hlength
        have hadd (added : BlockTable) : blockTableAdd table line (fields n) = .ok added ↔
            (line ∉ table → NameFits line (fields n)) ∧ added = table.insert line :=
          blockTableAdd_eq_ok_iff htext.nul hfirst
        have hunion : (line :: blockListEntries rest).reverse ∪ table =
            (blockListEntries rest).reverse ∪ table.insert line := by
          simp [List.union_def]
        rw [hround, hlines, hunion, restFits_cons, Fallible.bind_eq_ok]
        constructor
        · rintro ⟨added, hadded, hloop⟩
          obtain ⟨hfits, rfl⟩ := (hadd added).mp hadded
          obtain ⟨hrestFits, rfl⟩ := (ih (by omega) hrestTexts hrestLength).mp hloop
          exact ⟨⟨hfits, hrestFits⟩, rfl⟩
        · rintro ⟨⟨hfits, hrestFits⟩, hresult⟩
          exact ⟨table.insert line, (hadd _).mpr ⟨hfits, rfl⟩,
            (ih (by omega) hrestTexts hrestLength).mpr ⟨hrestFits, hresult⟩⟩

/-! ## The whole file -/

theorem linesFit_iff : LinesFit fields file ↔ RestFits fields 0 [] (blockListEntries file) := by
  simp [LinesFit, RestFits]

/-- Each line is added with some field. -/
theorem LinesFit.exists_fits (h : LinesFit fields file) (hline : line ∈ blockListEntries file) :
    ∃ i, NameFits line (fields i) := by
  obtain ⟨before, after, hlines, hfirst⟩ := List.eq_append_cons_of_mem hline
  have hat : (blockListEntries file)[before.length]? = some line := by simp [hlines]
  have hbefore : line ∉ (blockListEntries file).take before.length := by simpa [hlines] using hfirst
  exact ⟨before.length, h before.length line hat hbefore⟩

theorem NameFits.length_le (h : NameFits name field) : name.length ≤ maxNameLength - 1 :=
  h.elim le_of_lt fun hfull ↦ hfull.1.le

theorem loadBlockList_some :
    loadBlockList fields (some file) table = .ok (.success, table') ↔
      loadLoop fields (file.length + 1) 0 file table = .ok table' := by
  simp only [loadBlockList, Fallible.bind_eq_ok]
  constructor
  · rintro ⟨loaded, hloop, hresult⟩
    cases hresult
    exact hloop
  · intro hloop
    exact ⟨table', hloop, rfl⟩

theorem loadsLines_iff (hnul : 0 ∉ file) : LoadsLines fields file ↔ LinesFit fields file := by
  have hload (hlength : ∀ line ∈ blockListEntries file, line.length ≤ maxNameLength - 1)
      (table : BlockTable) : loadBlockList fields (some file) [] = .ok (.success, table) ↔
        LinesFit fields file ∧ table = (blockListEntries file).reverse ∪ [] := by
    rw [loadBlockList_some, linesFit_iff]
    exact loadLoop_eq_ok_iff (Nat.lt_succ_self _)
      (fun line hline ↦ lineText_of_length_le hnul hline (hlength line hline)) hlength
  have hlengths (h : LinesFit fields file) :
      ∀ line ∈ blockListEntries file, line.length ≤ maxNameLength - 1 := by
    intro line hline
    obtain ⟨i, hfits⟩ := h.exists_fits hline
    exact hfits.length_le
  constructor
  · rintro ⟨table, hloaded, htable⟩
    have hkeys := loadLoop_keys (by simp) (loadBlockList_some.mp hloaded)
    have hlength : ∀ line ∈ blockListEntries file, line.length ≤ maxNameLength - 1 := by
      intro line hline
      have hfound := (htable.found line).mpr hline
      exact hkeys line (by simpa [blockTableCheck] using hfound)
    exact ((hload hlength table).mp hloaded).1
  · intro hfits
    refine ⟨_, (hload (hlengths hfits) _).mpr ⟨hfits, rfl⟩, fun name ↦ ?_, ?_⟩
    · simp [blockTableCheck]
    · exact List.Nodup.union _ List.nodup_nil

/-- A field whose last byte is no NUL. -/
def filledName : NameField := ⟨List.replicate maxNameLength 1, List.length_replicate⟩

def clearedName : NameField := ⟨List.replicate maxNameLength 0, List.length_replicate⟩

/-- The table is the set of the lines exactly if each line fits where it first occurs; whatever
`malloc` leaves, it is so exactly if each line leaves room for a NUL. -/
theorem blockTable_lines_iff (hnul : 0 ∉ file) :
    (∀ fields, LoadsLines fields file ↔ LinesFit fields file) ∧
      ((∀ fields, LoadsLines fields file) ↔
        ∀ line ∈ blockListEntries file, line.length < maxNameLength - 1) := by
  refine ⟨fun fields ↦ loadsLines_iff hnul, ?_, ?_⟩
  · intro hloads line hline
    obtain ⟨-, hfits⟩ :=
      ((loadsLines_iff hnul).mp (hloads fun _ ↦ filledName)).exists_fits hline
    have hlast : filledName.val[maxNameLength - 1]? = some 1 :=
      List.getElem?_replicate_of_lt (by simp [maxNameLength])
    exact hfits.resolve_right fun hfull ↦ by simp [hlast] at hfull
  · intro hshort fields
    refine (loadsLines_iff hnul).mpr fun i line hline _ ↦ .inl (hshort line ?_)
    exact List.mem_of_getElem? hline

theorem blockTable_lines_iff_sample :
    (∀ fields, LoadsLines fields sampleBlockList ↔ LinesFit fields sampleBlockList) ∧
      ((∀ fields, LoadsLines fields sampleBlockList) ↔
        ∀ line ∈ blockListEntries sampleBlockList, line.length < maxNameLength - 1) :=
  blockTable_lines_iff (by decide)

/-- One line, twice, and one byte too long for the field of its name. -/
def longLine : List UInt8 := List.replicate maxNameLength 97

def longLines : List UInt8 := longLine ++ lf :: (longLine ++ [lf])

/-- The line is not found, and what is kept of it is in the table twice. -/
theorem not_blockTable_lines :
    ∃ table, loadBlockList (fun _ ↦ clearedName) (some longLines) [] = .ok (.success, table) ∧
      0 ∉ longLines ∧ longLine ∈ blockListEntries longLines ∧
        blockTableCheck table longLine = false ∧ ¬table.Nodup ∧
          ¬LoadsLines (fun _ ↦ clearedName) longLines := by
  let key : List UInt8 := List.replicate (maxNameLength - 1) 97
  have hloaded : loadBlockList (fun _ ↦ clearedName) (some longLines) [] =
      .ok (.success, [key, key]) := by decide +kernel
  have hlines : blockListEntries longLines = [longLine, longLine] := by decide +kernel
  have hmem : longLine ∈ blockListEntries longLines := by simp [hlines]
  have hmissing : blockTableCheck [key, key] longLine = false := by decide +kernel
  refine ⟨[key, key], hloaded, by decide +kernel, hmem, hmissing, by simp, ?_⟩
  rintro ⟨table, hload, htable⟩
  rw [hloaded] at hload
  cases hload
  have hfound := (htable.found longLine).mpr hmem
  rw [hmissing] at hfound
  cases hfound

end HttpProxy
