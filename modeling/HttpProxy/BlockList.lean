import HttpProxy.BlockedHosts
import HttpProxy.Lib.Fallible

/-!
# The block list

`load_block_list` of `server.c` stores the lines of a file, whatever their form, and
`resolve_host` looks up a name and the text of an address.  A port is in none of the texts
that are looked up.
-/

namespace HttpProxy

open CString Interaction Protocol

/-! ## Loading the file -/

/-- What `malloc` leaves in the name of a `struct table_element`. -/
abbrev NameField := { bytes : List UInt8 // bytes.length = maxNameLength }

/-- `block_table_add`.  If the copy has no NUL then its length is read beyond the field. -/
def blockTableAdd (table : BlockTable) (name : List UInt8) (field : NameField) :
    Except Fault BlockTable :=
  if blockTableCheck table name then .ok table
  else
    let stored := strncpy field.val name (maxNameLength - 1)
    if 0 ∈ stored then .ok (cstr stored 0 :: table) else .error .outOfBounds

/-- `fgets` on what is left of a file: at most `size - 1` bytes up to the first line feed,
and what is left then. -/
def fgets (size : ℕ) (file : List UInt8) : Option (List UInt8 × List UInt8) :=
  let lineLength := match file.idxOf? lf with
    | none => file.length
    | some newLine => newLine + 1
  if file = [] then none
  else some (file.take (min lineLength (size - 1)), file.drop (min lineLength (size - 1)))

/-- The line feed is overwritten with a NUL. -/
def cutNewLine (buffer : List UInt8) : List UInt8 :=
  match strchr buffer 0 lf with
  | none => buffer
  | some newLineChar => buffer.set newLineChar 0

/-- The loop of `load_block_list`; `fields n` is what the `n`-th `malloc` returns. -/
def loadLoop (fields : ℕ → NameField) : ℕ → ℕ → List UInt8 → BlockTable → Except Fault BlockTable
  | 0, _, _, _ => .error .outOfFuel
  | fuel + 1, n, file, table =>
      match fgets maxUrlSize file with
      | none => .ok table
      | some (line, rest) => do
          let table ← blockTableAdd table (cstr (cutNewLine (line ++ [0])) 0) (fields n)
          loadLoop fields fuel (n + 1) rest table

/-- `load_block_list`; without a file the table stays as it is. -/
def loadBlockList (fields : ℕ → NameField) (blockListFile : Option (List UInt8))
    (table : BlockTable) : Except Fault (Status × BlockTable) :=
  match blockListFile with
  | none => .ok (.fail, table)
  | some file => do
      let table ← loadLoop fields (file.length + 1) 0 file table
      .ok (.success, table)

/-! ## The documented forms -/

variable {fields : ℕ → NameField} {file line rest entry name hostname : List UInt8}
  {table table' : BlockTable} {fuel n : ℕ} {tr : Trace}

def colon : UInt8 := 58

/-- The lines of a file; the last one need not be ended. -/
def blockListEntries : List UInt8 → List (List UInt8)
  | [] => []
  | c :: cs =>
      if c = lf then [] :: blockListEntries cs
      else match blockListEntries cs with
        | [] => [[c]]
        | line :: lines => (c :: line) :: lines

def withPort (name port : List UInt8) : List UInt8 := name ++ colon :: port

/-- A domain fits into the name of a table element. -/
structure IsDomain (domain : List UInt8) : Prop where
  short : domain.length < maxNameLength - 1
  nul : 0 ∉ domain
  newLine : lf ∉ domain
  colon : colon ∉ domain

structure IsPort (port : List UInt8) : Prop where
  short : port.length ≤ 5
  digits : ∀ c ∈ port, isDigit c = true

/-- The forms `<domain>`, `<domain>:<port>` and `<ip>:<port>`. -/
inductive DocumentedForm : List UInt8 → Prop
  | domain {domain : List UInt8} (hdomain : IsDomain domain) : DocumentedForm domain
  | domainPort {domain port : List UInt8} (hdomain : IsDomain domain) (hport : IsPort port) :
      DocumentedForm (withPort domain port)
  | ipPort (ip : Address) {port : List UInt8} (hport : IsPort port) :
      DocumentedForm (withPort (inetNtop ip) port)

theorem blockListEntries_append (h : lf ∉ line) :
    blockListEntries (line ++ lf :: rest) = line :: blockListEntries rest := by
  induction line with
  | nil => simp [blockListEntries]
  | cons c line ih =>
      rw [List.mem_cons, not_or] at h
      simp [blockListEntries, Ne.symm h.1, ih h.2]

theorem blockListEntries_last (h : lf ∉ line) (hne : line ≠ []) :
    blockListEntries line = [line] := by
  induction line with
  | nil => exact absurd rfl hne
  | cons c line ih =>
      rw [List.mem_cons, not_or] at h
      cases line with
      | nil => simp [blockListEntries, Ne.symm h.1]
      | cons d line => rw [blockListEntries, if_neg (Ne.symm h.1), ih h.2 (by simp)]

/-! ## The texts of the forms -/

theorem decimalByte_digits (n : UInt8) :
    (decimalByte n).all isDigit = true ∧ (decimalByte n).length ≤ 3 := by
  have hall : ∀ k < 256, (decimalByte (UInt8.ofNat k)).all isDigit = true ∧
      (decimalByte (UInt8.ofNat k)).length ≤ 3 := by decide +kernel
  simpa using hall n.toNat n.toNat_lt

theorem inetNtop_digits (address : Address) :
    (∀ c ∈ inetNtop address, isDigit c = true ∨ c = 46) ∧ (inetNtop address).length ≤ 15 := by
  obtain ⟨ha, hla⟩ := decimalByte_digits address.a
  obtain ⟨hb, hlb⟩ := decimalByte_digits address.b
  obtain ⟨hc, hlc⟩ := decimalByte_digits address.c
  obtain ⟨hd, hld⟩ := decimalByte_digits address.d
  rw [List.all_eq_true] at ha hb hc hd
  refine ⟨fun c hmem ↦ ?_, ?_⟩
  · simp only [inetNtop, List.mem_append, List.mem_cons] at hmem
    rcases hmem with hmem | rfl | hmem | rfl | hmem | rfl | hmem
    · exact .inl (ha c hmem)
    · exact .inr rfl
    · exact .inl (hb c hmem)
    · exact .inr rfl
    · exact .inl (hc c hmem)
    · exact .inr rfl
    · exact .inl (hd c hmem)
  · simp only [inetNtop, List.length_append, List.length_cons]
    omega

/-- The text of an address has the form of a domain. -/
theorem isDomain_inetNtop (address : Address) : IsDomain (inetNtop address) := by
  obtain ⟨hdigits, hlength⟩ := inetNtop_digits address
  have hnot {c : UInt8} (hdigit : isDigit c = false) (hdot : c ≠ 46) : c ∉ inetNtop address := by
    intro hmem
    rcases hdigits c hmem with h | h
    · rw [hdigit] at h
      cases h
    · exact hdot h
  exact ⟨by simp only [maxNameLength]; omega, hnot (by decide) (by decide),
    hnot (by decide) (by decide), hnot (by decide) (by decide)⟩

/-- What the loader relies on in a line: it is read whole, and if its name does not fit
then what is kept of it still has the colon. -/
structure EntryText (entry : List UInt8) : Prop where
  short : entry.length + 1 ≤ maxUrlSize - 1
  nul : 0 ∉ entry
  newLine : lf ∉ entry
  kept : entry.length < maxNameLength - 1 ∨ colon ∈ entry.take (maxNameLength - 1)

/-- A line that one call of `fgets` reads. -/
structure LineText (line : List UInt8) : Prop where
  short : line.length + 1 ≤ maxUrlSize - 1
  nul : 0 ∉ line
  newLine : lf ∉ line

theorem EntryText.lineText (h : EntryText entry) : LineText entry := ⟨h.short, h.nul, h.newLine⟩

theorem entryText_withPort {domain port : List UInt8} (hdomain : IsDomain domain)
    (hport : IsPort port) : EntryText (withPort domain port) := by
  have hnot {c : UInt8} (hdigit : isDigit c = false) : c ∉ port := by
    intro hmem
    rw [hport.digits c hmem] at hdigit
    cases hdigit
  have hlength : (withPort domain port).length = domain.length + (port.length + 1) := by
    simp [withPort]
  have hshort := hdomain.short
  have hports := hport.short
  simp only [maxNameLength] at hshort
  refine ⟨by simp only [maxUrlSize, hlength]; omega, ?_, ?_, .inr ?_⟩
  · simp only [withPort, List.mem_append, List.mem_cons, not_or]
    exact ⟨hdomain.nul, by decide, hnot (by decide)⟩
  · simp only [withPort, List.mem_append, List.mem_cons, not_or]
    exact ⟨hdomain.newLine, by decide, hnot (by decide)⟩
  · have hinitial : domain ++ [colon] <+: (withPort domain port).take (maxNameLength - 1) := by
      refine List.prefix_take_iff.mpr ⟨⟨port, by simp [withPort]⟩, ?_⟩
      simp only [List.length_append, List.length_singleton, maxNameLength]
      omega
    exact hinitial.subset (by simp)

theorem DocumentedForm.entryText (h : DocumentedForm entry) : EntryText entry := by
  cases h with
  | domain hdomain =>
      have hshort := hdomain.short
      simp only [maxNameLength] at hshort
      exact ⟨by simp only [maxUrlSize]; omega, hdomain.nul, hdomain.newLine, .inl hdomain.short⟩
  | domainPort hdomain hport => exact entryText_withPort hdomain hport
  | ipPort ip hport => exact entryText_withPort (isDomain_inetNtop ip) hport

/-! ## What is in the table -/

theorem strncpy_short (h : entry.length < maxNameLength - 1) (field : NameField) :
    strncpy field.val entry (maxNameLength - 1) = entry ++
      0 :: (List.replicate (maxNameLength - 1 - entry.length - 1) 0 ++
        field.val.drop (maxNameLength - 1)) := by
  obtain ⟨left, hleft⟩ := Nat.exists_eq_add_of_lt h
  have hpad : maxNameLength - 1 - entry.length = left + 1 := by omega
  simp [strncpy, List.take_of_length_le h.le, hpad, List.replicate_succ]

theorem exists_blockTableAdd (h : entry.length < maxNameLength - 1) (table : BlockTable)
    (field : NameField) : ∃ table', blockTableAdd table entry field = .ok table' := by
  unfold blockTableAdd
  split
  · exact ⟨_, rfl⟩
  · rw [strncpy_short h]
    exact ⟨_, if_pos (by simp)⟩

/-- A name without a colon is added by its own line only. -/
theorem mem_blockTableAdd {field : NameField} (hentry : EntryText entry) (hname : colon ∉ name)
    (hadd : blockTableAdd table entry field = .ok table') :
    name ∈ table' ↔ name ∈ table ∨ name = entry := by
  unfold blockTableAdd at hadd
  split at hadd
  next hfound =>
    cases hadd
    have hmem : entry ∈ table := by simpa [blockTableCheck] using hfound
    exact ⟨.inl, fun h ↦ h.elim id fun heq ↦ heq ▸ hmem⟩
  next =>
    simp only at hadd
    split at hadd
    next hterminated =>
      cases hadd
      rw [List.mem_cons, or_comm]
      apply or_congr_right
      rcases hentry.kept with hshort | hcolon
      · rw [strncpy_short hshort, cstr_append_nul hentry.nul]
      · have hnul : 0 ∉ entry.take (maxNameLength - 1) :=
          fun h ↦ hentry.nul (List.mem_of_mem_take h)
        have hkey : colon ∈ cstr (strncpy field.val entry (maxNameLength - 1)) 0 := by
          rw [strncpy, List.append_assoc, cstr_append hnul]
          exact List.mem_append_left _ hcolon
        have hne {text : List UInt8} (h : colon ∈ text) : name ≠ text := by
          rintro rfl
          exact hname h
        exact iff_of_false (hne hkey) (hne (List.mem_of_mem_take hcolon))
    next => cases hadd

/-! ## The loop -/

theorem fgets_line (hline : lf ∉ line) (hshort : line.length + 1 ≤ maxUrlSize - 1) :
    fgets maxUrlSize (line ++ lf :: rest) = some (line ++ [lf], rest) := by
  have hsplit : line ++ lf :: rest = (line ++ [lf]) ++ rest := by simp
  have hlength : min (line.length + 1) (maxUrlSize - 1) = (line ++ [lf]).length := by
    rw [List.length_append, List.length_singleton]
    exact min_eq_left hshort
  simp only [fgets, idxOf?_append_cons hline, hlength]
  rw [if_neg (by simp), hsplit, List.take_left, List.drop_left]

theorem fgets_last (hline : lf ∉ line) (hne : line ≠ []) (hshort : line.length ≤ maxUrlSize - 1) :
    fgets maxUrlSize line = some (line, []) := by
  simp only [fgets, idxOf?_eq_none hline, if_neg hne, min_eq_left hshort, List.take_length,
    List.drop_length]

theorem cutNewLine_line (hentry : LineText entry) :
    cstr (cutNewLine (entry ++ [lf] ++ [0])) 0 = entry := by
  have hstring : cstr (entry ++ [lf] ++ [0]) 0 = entry ++ lf :: [] := by
    have hnul : 0 ∉ entry ++ [lf] := by simpa using ⟨hentry.nul, by decide⟩
    exact cstr_append_nul hnul []
  have hset : (entry ++ [lf] ++ [0]).set entry.length 0 = entry ++ 0 :: [0] := by simp
  rw [cutNewLine, strchr_of_append_cons (by decide) hstring hentry.newLine]
  simp only [Nat.zero_add, hset]
  exact cstr_append_nul hentry.nul _

theorem cutNewLine_last (hentry : LineText entry) :
    cstr (cutNewLine (entry ++ [0])) 0 = entry := by
  have hstring : cstr (entry ++ [0]) 0 = entry := cstr_append_nul hentry.nul []
  rw [cutNewLine, strchr_eq_none (by decide) (by rw [hstring]; exact hentry.newLine)]
  exact hstring

/-- A round of the loop adds the first line of what is left. -/
theorem loadLoop_succ (hne : file ≠ []) (hforms : ∀ entry ∈ blockListEntries file, LineText entry)
    (fields : ℕ → NameField) (fuel n : ℕ) (table : BlockTable) :
    ∃ entry rest, blockListEntries file = entry :: blockListEntries rest ∧
      rest.length < file.length ∧ loadLoop fields (fuel + 1) n file table = (do
        let table ← blockTableAdd table entry (fields n)
        loadLoop fields fuel (n + 1) rest table) := by
  by_cases hmem : lf ∈ file
  · obtain ⟨line, rest, rfl, hline⟩ := List.eq_append_cons_of_mem hmem
    rw [blockListEntries_append hline] at hforms
    have hentry := hforms line (by simp)
    refine ⟨line, rest, blockListEntries_append hline, ?_, ?_⟩
    · simp only [List.length_append, List.length_cons]
      omega
    · simp only [loadLoop, fgets_line hline hentry.short, cutNewLine_line hentry]
  · rw [blockListEntries_last hmem hne] at hforms
    have hentry := hforms file (by simp)
    have hwhole : file.length ≤ maxUrlSize - 1 := (Nat.le_succ _).trans hentry.short
    refine ⟨file, [], blockListEntries_last hmem hne, List.length_pos_iff.mpr hne, ?_⟩
    simp only [loadLoop, fgets_last hmem hne hwhole, cutNewLine_last hentry]

/-- A name without a colon is found after the loop if it is one of the lines. -/
theorem mem_loadLoop (hforms : ∀ entry ∈ blockListEntries file, EntryText entry)
    (hname : colon ∉ name) (hload : loadLoop fields fuel n file table = .ok table') :
    name ∈ table' ↔ name ∈ table ∨ name ∈ blockListEntries file := by
  induction fuel generalizing n file table with
  | zero => cases hload
  | succ fuel ih =>
      by_cases hne : file = []
      · subst hne
        cases hload
        simp [blockListEntries]
      · have hlines := fun entry hentry ↦ (hforms entry hentry).lineText
        obtain ⟨entry, rest, hentries, -, hround⟩ := loadLoop_succ hne hlines fields fuel n table
        rw [hentries] at hforms
        obtain ⟨hentry, hrest⟩ := List.forall_mem_cons.mp hforms
        rw [hround] at hload
        obtain ⟨added, hadd, hload⟩ := Fallible.bind_eq_ok.mp hload
        rw [ih hrest hload, mem_blockTableAdd hentry hname hadd, hentries, List.mem_cons, or_assoc]

/-- With lines that fit into their fields the loop reaches the end of the file. -/
theorem exists_loadLoop (hforms : ∀ entry ∈ blockListEntries file, EntryText entry)
    (hshort : ∀ entry ∈ blockListEntries file, entry.length < maxNameLength - 1)
    (hfuel : file.length < fuel) (fields : ℕ → NameField) (n : ℕ) (table : BlockTable) :
    ∃ table', loadLoop fields fuel n file table = .ok table' := by
  induction fuel generalizing n file table with
  | zero => omega
  | succ fuel ih =>
      by_cases hne : file = []
      · subst hne
        exact ⟨table, rfl⟩
      · have hlines := fun entry hentry ↦ (hforms entry hentry).lineText
        obtain ⟨entry, rest, hentries, hlength, hround⟩ :=
          loadLoop_succ hne hlines fields fuel n table
        rw [hentries] at hforms hshort
        obtain ⟨-, hrest⟩ := List.forall_mem_cons.mp hforms
        obtain ⟨hfits, hrestFits⟩ := List.forall_mem_cons.mp hshort
        obtain ⟨added, hadd⟩ := exists_blockTableAdd hfits table (fields n)
        obtain ⟨loaded, hload⟩ := ih hrest hrestFits (by omega) (n + 1) added
        exact ⟨loaded, hround.trans (Fallible.bind_eq_ok.mpr ⟨added, hadd, hload⟩)⟩

theorem mem_loadBlockList {status : Status}
    (hforms : ∀ entry ∈ blockListEntries file, DocumentedForm entry) (hname : colon ∉ name)
    (hload : loadBlockList fields (some file) [] = .ok (status, table)) :
    name ∈ table ↔ name ∈ blockListEntries file := by
  obtain ⟨loaded, hloop, hresult⟩ := Fallible.bind_eq_ok.mp hload
  cases hresult
  rw [mem_loadLoop (fun entry hentry ↦ (hforms entry hentry).entryText) hname hloop]
  simp

theorem exists_loadBlockList (hforms : ∀ entry ∈ blockListEntries file, DocumentedForm entry)
    (hshort : ∀ entry ∈ blockListEntries file, entry.length < maxNameLength - 1)
    (fields : ℕ → NameField) :
    ∃ table, loadBlockList fields (some file) [] = .ok (.success, table) := by
  obtain ⟨table, hloop⟩ := exists_loadLoop (fun entry hentry ↦ (hforms entry hentry).entryText)
    hshort (Nat.lt_succ_self file.length) fields 0 []
  exact ⟨table, Fallible.bind_eq_ok.mpr ⟨table, hloop, rfl⟩⟩

/-! ## Requests -/

/-- What `getaddrinfo` returns. -/
abbrev ResolverAnswer := Option { addresses : List Address // addresses ≠ [] }

/-- The resolver answers what it is given to answer. -/
def resolverAnswers (answer : ResolverAnswer) : Protocol Resp Unit where
  requires _ _ := True
  answers _ op r :=
    match op, r with
    | .getaddrinfo _ _, resolved => resolved = answer
    | _, _ => True
  next _ _ _ := ()

variable {answer : ResolverAnswer}

theorem resolverAnswers_total (answer : ResolverAnswer) (s : Unit) (op : Op) :
    ∃ r, (resolverAnswers answer).answers s op r := by
  cases op with
  | getaddrinfo name service => exact ⟨answer, rfl⟩
  | _ =>
      obtain ⟨r, -⟩ := anything_total () _
      exact ⟨r, trivial⟩

/-- The name is found in `names`, or each of the addresses it resolves to is. -/
def FoundIn (names : List UInt8 → Prop) (hostname : List UInt8) (answer : ResolverAnswer) :
    Prop :=
  names (splitHostname hostname).1 ∨
    ∃ addresses, answer = some addresses ∧ ∀ address ∈ addresses.val, names (inetNtop address)

/-- The port of a request for `hostname`. -/
def requestPort (hostname : List UInt8) : List UInt8 := (splitHostname hostname).2.getD (text "80")

/-- The documentation asks for the request to be blocked. -/
def DocumentedBlock (entries : List (List UInt8)) (hostname : List UInt8)
    (answer : ResolverAnswer) : Prop :=
  (splitHostname hostname).1 ∈ entries ∨
    withPort (splitHostname hostname).1 (requestPort hostname) ∈ entries ∨
      ∃ addresses, answer = some addresses ∧ ∀ address ∈ addresses.val,
        inetNtop address ∈ entries ∨ withPort (inetNtop address) (requestPort hostname) ∈ entries

/-- What asks for the request to be blocked are entries with a port. -/
def OnlyWithPort (entries : List (List UInt8)) (hostname : List UInt8)
    (answer : ResolverAnswer) : Prop :=
  DocumentedBlock entries hostname answer ∧ ¬FoundIn (· ∈ entries) hostname answer

theorem splitHostname_fst (hostname : List UInt8) :
    (splitHostname hostname).1 = hostname.takeWhile (· ≠ 58) := by
  unfold splitHostname
  cases hfind : hostname.idxOf? 58 with
  | none => exact (takeWhile_ne_of_notMem (List.idxOf?_eq_none_iff.mp hfind)).symm
  | some i =>
      obtain ⟨name, port, rfl, hname, rfl⟩ := split_of_idxOf? hfind
      simp only [List.take_left]
      exact (takeWhile_ne_append_cons hname).symm

theorem colon_notMem_name (hostname : List UInt8) : colon ∉ (splitHostname hostname).1 := by
  intro hcolon
  rw [splitHostname_fst] at hcolon
  have hother : colon ≠ 58 := by simpa using List.mem_takeWhile_imp hcolon
  exact hother (Eq.refl colon)

def AddressesBlocked (table : BlockTable) (answer : ResolverAnswer) : Prop :=
  ∃ addresses, answer = some addresses ∧
    ∀ address ∈ addresses.val, blockTableCheck table (inetNtop address) = true

instance (table : BlockTable) (answer : ResolverAnswer) :
    Decidable (AddressesBlocked table answer) :=
  match answer with
  | none => .isFalse (by rintro ⟨_, ⟨⟩, -⟩)
  | some addresses => decidable_of_iff
      (∀ address ∈ addresses.val, blockTableCheck table (inetNtop address) = true)
      (by simp [AddressesBlocked])

/-- What `resolve_host` returns, with a resolver that answers this. -/
def resolvedStatus (table : BlockTable) (hostname : List UInt8) (answer : ResolverAnswer) :
    HostStatus :=
  if blockTableCheck table (splitHostname hostname).1 ∨ AddressesBlocked table answer then .blocked
  else if answer = none then .notFound else .ok

theorem run_resolveHost_status {outcome : Except Fault (HostStatus × List Address)}
    (hrun : (resolverAnswers answer).Run () (resolveHost table hostname) tr () outcome) :
    outcome.map Prod.fst = .ok (resolvedStatus table hostname answer) := by
  unfold resolveHost at hrun
  split at hrun
  next hname =>
    obtain ⟨-, -, rfl⟩ := run_ret.mp hrun
    rw [resolvedStatus, if_pos (.inl hname)]
    rfl
  next hname =>
    simp only [getaddrinfo_bind, run_call] at hrun
    obtain ⟨resolved, tr, hresolved, rfl, hrun⟩ := hrun
    obtain rfl : resolved = answer := hresolved
    cases resolved with
    | none =>
        obtain ⟨-, -, rfl⟩ := run_ret.mp hrun
        have hstatus : resolvedStatus table hostname none = .notFound := by
          simp [resolvedStatus, hname, AddressesBlocked]
        rw [hstatus]
        rfl
    | some addresses =>
        rcases run_checkAddresses addresses.property hrun with
          ⟨skipped, address, rest, hsplit, -, hfree, -, rfl⟩ | ⟨hall, -, rfl⟩
        · have hnot : ¬AddressesBlocked table (some addresses) := by
            rintro ⟨_, ⟨⟩, hblocked⟩
            have hfound := hblocked address (by simp [hsplit])
            rw [hfree] at hfound
            cases hfound
          have hstatus : resolvedStatus table hostname (some addresses) = .ok := by
            simp [resolvedStatus, hname, hnot]
          rw [hstatus]
          rfl
        · have hblocked : AddressesBlocked table (some addresses) := ⟨addresses, rfl, hall⟩
          rw [resolvedStatus, if_pos (.inr hblocked)]
          rfl

theorem resolvedStatus_blocked_iff :
    resolvedStatus table hostname answer = .blocked ↔ FoundIn (· ∈ table) hostname answer := by
  have hfound : FoundIn (· ∈ table) hostname answer ↔
      blockTableCheck table (splitHostname hostname).1 ∨ AddressesBlocked table answer := by
    simp only [FoundIn, AddressesBlocked, blockTableCheck, List.contains_iff_mem]
  rw [hfound, resolvedStatus]
  split
  next hblocked => exact iff_of_true rfl hblocked
  next hfree =>
    refine iff_of_false ?_ hfree
    split <;> simp

theorem run_resolveHost_blocked {out : Except Fault (HostStatus × List Address)}
    (hrun : (resolverAnswers answer).Run () (resolveHost table hostname) tr () out) :
    out = .ok (.blocked, []) ↔ FoundIn (· ∈ table) hostname answer := by
  have hstatus := run_resolveHost_status hrun
  obtain ⟨status, addresses, hresolved, rfl⟩ := run_resolveHost hrun
  obtain rfl : status = resolvedStatus table hostname answer := Except.ok.inj hstatus
  rw [← resolvedStatus_blocked_iff]
  constructor
  · intro hout
    exact congrArg Prod.fst (Except.ok.inj hout)
  · intro hblocked
    rw [hblocked] at hresolved ⊢
    cases hresolved <;> rfl

/-- The documented forms block exactly where no port is needed. -/
theorem documentedForms_block_iff {status : Status}
    {out : Except Fault (HostStatus × List Address)}
    (hforms : ∀ entry ∈ blockListEntries file, DocumentedForm entry)
    (hload : loadBlockList fields (some file) [] = .ok (status, table))
    (hrun : (resolverAnswers answer).Run () (resolveHost table hostname) tr () out) :
    (DocumentedBlock (blockListEntries file) hostname answer → out = .ok (.blocked, [])) ↔
      ¬OnlyWithPort (blockListEntries file) hostname answer := by
  have hname := mem_loadBlockList hforms (colon_notMem_name hostname) hload
  have haddress (address : Address) :=
    mem_loadBlockList hforms (isDomain_inetNtop address).colon hload
  have hfound : FoundIn (· ∈ table) hostname answer ↔
      FoundIn (· ∈ blockListEntries file) hostname answer := by
    simp only [FoundIn, hname, haddress]
  rw [run_resolveHost_blocked hrun, hfound, OnlyWithPort, not_and, not_not]

/-- The sample of the tests. -/
def sampleBlockList : List UInt8 := text "facebook.com\ngoogle.com:80\n"

theorem sampleBlockList_forms :
    ∀ entry ∈ blockListEntries sampleBlockList, DocumentedForm entry := by
  have hentries : blockListEntries sampleBlockList =
      [text "facebook.com", withPort (text "google.com") (text "80")] := by decide
  rw [hentries]
  simp only [List.forall_mem_cons, List.not_mem_nil, false_implies, implies_true, and_true]
  have hport : IsPort (text "80") := ⟨by decide, List.all_eq_true.mp (by decide)⟩
  exact ⟨.domain ⟨by decide, by decide, by decide, by decide⟩,
    .domainPort ⟨by decide, by decide, by decide, by decide⟩ hport⟩

theorem exists_sampleTable :
    ∃ table, loadBlockList (fun _ ↦ ⟨List.replicate maxNameLength 0, List.length_replicate⟩)
      (some sampleBlockList) [] = .ok (.success, table) :=
  exists_loadBlockList sampleBlockList_forms (by decide) _

theorem documentedForms_block_iff_sample :
    ∃ (table : BlockTable) (tr : Trace) (out : Except Fault (HostStatus × List Address)),
      (resolverAnswers none).Run () (resolveHost table (text "facebook.com")) tr () out ∧
      ((DocumentedBlock (blockListEntries sampleBlockList) (text "facebook.com") none →
          out = .ok (.blocked, [])) ↔
        ¬OnlyWithPort (blockListEntries sampleBlockList) (text "facebook.com") none) := by
  obtain ⟨table, hload⟩ := exists_sampleTable
  obtain ⟨tr, ⟨⟩, out, hrun⟩ := exists_run (resolverAnswers_total none)
    (resolveHost table (text "facebook.com")) ()
  exact ⟨table, tr, out, hrun, documentedForms_block_iff sampleBlockList_forms hload hrun⟩

/-- The sample does not block the host it lists with a port. -/
theorem not_documentedForms_block :
    ∃ (table : BlockTable) (address : { addresses : List Address // addresses ≠ [] }) (tr : Trace)
      (out : Except Fault (HostStatus × List Address)),
      loadBlockList (fun _ ↦ ⟨List.replicate maxNameLength 0, List.length_replicate⟩)
        (some sampleBlockList) [] = .ok (.success, table) ∧
      DocumentedBlock (blockListEntries sampleBlockList) (text "google.com") (some address) ∧
      (resolverAnswers (some address)).Run () (resolveHost table (text "google.com")) tr () out ∧
      out ≠ .ok (.blocked, []) := by
  obtain ⟨table, hload⟩ := exists_sampleTable
  let address : { addresses : List Address // addresses ≠ [] } :=
    ⟨[⟨142, 250, 80, 46, 80⟩], by simp⟩
  have hname := mem_loadBlockList sampleBlockList_forms
    (colon_notMem_name (text "google.com")) hload
  have haddress := mem_loadBlockList sampleBlockList_forms
    (isDomain_inetNtop ⟨142, 250, 80, 46, 80⟩).colon hload
  obtain ⟨tr, ⟨⟩, out, hrun⟩ := exists_run (resolverAnswers_total (some address))
    (resolveHost table (text "google.com")) ()
  refine ⟨table, address, tr, out, hload, .inr (.inl (by decide)), hrun, fun hout ↦ ?_⟩
  rcases (run_resolveHost_blocked hrun).mp hout with hfound | ⟨_, ⟨⟩, hfound⟩
  · exact absurd (hname.mp hfound) (by decide)
  · exact absurd (haddress.mp (hfound _ (by simp [address]))) (by decide)

end HttpProxy
