import Mathlib.Data.List.Induction
import HttpProxy.UpstreamRequest

/-!
# The command line that hashes a url

The cache puts the text of a url between the double quotes of a command line.  The shell takes
it as it is only if four bytes are not in it, and the parser lets these bytes through.
-/

namespace HttpProxy

open CString Interaction Protocol

variable {fuel i : ℕ} {c : UInt8} {url host line t rest : List UInt8} {lines : List (List UInt8)}
  {job : Job} {locals : Locals} {table : BlockTable} {tr : Trace} {r : AbsoluteRequest}
  {out out' : ParseOut}

/-- The bytes that have a meaning between double quotes. -/
def ShellSpecial (c : UInt8) : Prop := c = 34 ∨ c = 36 ∨ c = 96 ∨ c = 92

instance (c : UInt8) : Decidable (ShellSpecial c) := inferInstanceAs (Decidable (_ ∨ _))

/-- The command that `cache_record_get_or_create` runs for a url. -/
def hashCommand (url : List UInt8) : List UInt8 := text "echo \"" ++ url ++ text "\" | md5sum"

/-- The shell reads up to the closing quote: the text, if it is taken as it is, and what
follows the quote. -/
def readQuoted : List UInt8 → Option (List UInt8 × List UInt8)
  | [] => none
  | c :: rest =>
      if c = 34 then some ([], rest)
      else if ShellSpecial c then none
      else (readQuoted rest).map fun read ↦ (c :: read.1, read.2)

/-- None of the special bytes is in the url, and the shell reads one argument of `echo`, which is
the url, and then the pipe. -/
def LiteralCommand (url : List UInt8) : Prop :=
  (∀ c ∈ url, ¬ShellSpecial c) ∧
    ∃ quoted, hashCommand url = text "echo \"" ++ quoted ∧
      readQuoted quoted = some (url, text " | md5sum")

theorem readQuoted_append (h : ∀ c ∈ url, ¬ShellSpecial c) (rest : List UInt8) :
    readQuoted (url ++ 34 :: rest) = some (url, rest) := by
  induction url with
  | nil => rfl
  | cons c url ih =>
      obtain ⟨hc, hurl⟩ := List.forall_mem_cons.mp h
      have hquote : c ≠ 34 := fun heq ↦ hc (.inl heq)
      rw [List.cons_append, readQuoted, if_neg hquote, if_neg hc, ih hurl]
      rfl

theorem literalCommand_iff : LiteralCommand url ↔ ∀ c ∈ url, ¬ShellSpecial c := by
  refine ⟨And.left, fun h ↦ ⟨h, url ++ text "\" | md5sum", ?_, ?_⟩⟩
  · rw [hashCommand, List.append_assoc]
  · have hend : text "\" | md5sum" = 34 :: text " | md5sum" := by decide
    rw [hend, readQuoted_append h]

/-! ## The bytes of the host -/

/-- The `Host` line decides what stands at this place of the host. -/
def Reaches (line : List UInt8) (i : ℕ) : Prop :=
  IsHostLine line ∧ (i + 2 < (hostValue line).length ∨ i + 1 = (hostValue line).length)

/-- The byte is written to this place, by the url or by a `Host` line, and no later line reaches
the place. -/
inductive Stays (host : List UInt8) (lines : List (List UInt8)) (i : ℕ) (c : UInt8) : Prop
  | url (hbyte : host[i]? = some c) (hlater : ∀ line ∈ lines, ¬Reaches line i)
  | line {before after : List (List UInt8)} {line : List UInt8}
      (hlines : lines = before ++ line :: after) (hhost : IsHostLine line)
      (hinside : i + 2 < (hostValue line).length) (hbyte : (hostValue line)[i]? = some c)
      (hlater : ∀ line ∈ after, ¬Reaches line i)

theorem overwriteHost_of_reaches {host : ℕ → UInt8} (h : Reaches line i) :
    overwriteHost host line i =
      if i + 2 < (hostValue line).length then (hostValue line).getD i 0 else 0 := by
  rw [overwriteHost, if_neg (not_not.mpr h.1)]
  split
  · rfl
  · rw [if_pos (h.2.resolve_left ‹_›)]

theorem overwriteHost_of_not_reaches {host : ℕ → UInt8} (h : ¬Reaches line i) :
    overwriteHost host line i = host i := by
  unfold overwriteHost
  split
  · rfl
  next hhost =>
    have hnot : ¬(i + 2 < (hostValue line).length ∨ i + 1 = (hostValue line).length) :=
      fun hplace ↦ h ⟨not_not.mp hhost, hplace⟩
    rw [not_or] at hnot
    rw [if_neg hnot.1, if_neg hnot.2]

theorem stays_append_of_not_reaches (h : ¬Reaches line i) :
    Stays host (lines ++ [line]) i c ↔ Stays host lines i c := by
  constructor
  · intro hstays
    cases hstays with
    | url hbyte hlater =>
        exact .url hbyte fun line' hline' ↦ hlater line' (List.mem_append_left _ hline')
    | @line before after line' hlines hhost hinside hbyte hlater =>
        rcases List.eq_nil_or_concat after with rfl | ⟨after, last, rfl⟩
        · obtain ⟨-, hlast⟩ := List.append_inj' hlines rfl
          obtain rfl := List.singleton_inj.mp hlast
          exact absurd ⟨hhost, .inl hinside⟩ h
        · rw [List.concat_eq_append, ← List.cons_append, ← List.append_assoc] at hlines
          obtain ⟨rfl, -⟩ := List.append_inj' hlines rfl
          exact .line rfl hhost hinside hbyte fun line' hline' ↦ hlater line' (by simp [hline'])
  · intro hstays
    cases hstays with
    | url hbyte hlater =>
        refine .url hbyte fun line' hline' ↦ ?_
        rcases List.mem_append.mp hline' with hmem | hmem
        · exact hlater line' hmem
        · rwa [List.mem_singleton.mp hmem]
    | @line before after line' hlines hhost hinside hbyte hlater =>
        have hsplit : lines ++ [line] = before ++ line' :: (after ++ [line]) := by simp [hlines]
        refine .line hsplit hhost hinside hbyte fun l hl ↦ ?_
        rcases List.mem_append.mp hl with hmem | hmem
        · exact hlater l hmem
        · rwa [List.mem_singleton.mp hmem]

theorem stays_append_of_reaches (h : Reaches line i) :
    Stays host (lines ++ [line]) i c ↔
      i + 2 < (hostValue line).length ∧ (hostValue line)[i]? = some c := by
  constructor
  · intro hstays
    cases hstays with
    | url hbyte hlater => exact absurd h (hlater line (by simp))
    | @line before after line' hlines hhost hinside hbyte hlater =>
        rcases List.eq_nil_or_concat after with rfl | ⟨after, last, rfl⟩
        · obtain ⟨-, hlast⟩ := List.append_inj' hlines rfl
          obtain rfl := List.singleton_inj.mp hlast
          exact ⟨hinside, hbyte⟩
        · rw [List.concat_eq_append, ← List.cons_append, ← List.append_assoc] at hlines
          obtain ⟨-, hlast⟩ := List.append_inj' hlines rfl
          obtain rfl := List.singleton_inj.mp hlast
          exact absurd h (hlater line (by simp))
  · rintro ⟨hinside, hbyte⟩
    exact .line rfl h.1 hinside hbyte (by simp)

/-- The bytes that stay are those of the host after the lines. -/
theorem stays_iff (hhost : 0 ∉ host) (hlines : ∀ line ∈ lines, 0 ∉ line) :
    Stays host lines i c ↔ hostAfter host lines i = c ∧ c ≠ 0 := by
  have hget {l : List UInt8} (hnul : 0 ∉ l) : l[i]? = some c ↔ l.getD i 0 = c ∧ c ≠ 0 := by
    rw [List.getD_eq_getElem?_getD]
    cases hi : l[i]? with
    | none => simp +contextual
    | some d =>
        have hd : d ≠ 0 := fun h ↦ hnul (h ▸ List.mem_of_getElem? hi)
        simp only [Option.some_inj, Option.getD_some]
        exact ⟨fun h ↦ ⟨h, h ▸ hd⟩, And.left⟩
  induction lines using List.reverseRecOn with
  | nil =>
      rw [hostAfter, List.foldl_nil, ← hget hhost]
      constructor
      · intro hstays
        cases hstays with
        | url hbyte _ => exact hbyte
        | line hsplit => simp at hsplit
      · intro hbyte
        exact .url hbyte (by simp)
  | append_singleton lines line ih =>
      have hline : 0 ∉ hostValue line := fun h ↦
        hlines line (by simp) (hostValue_subset line h)
      rw [hostAfter, List.foldl_append, List.foldl_cons, List.foldl_nil]
      by_cases hreaches : Reaches line i
      · rw [stays_append_of_reaches hreaches, overwriteHost_of_reaches hreaches, hget hline]
        split
        next hinside => exact and_iff_right hinside
        next hoff =>
          refine iff_of_false (fun h ↦ hoff h.1) ?_
          rintro ⟨rfl, hne⟩
          exact hne rfl
      · rw [stays_append_of_not_reaches hreaches, overwriteHost_of_not_reaches hreaches]
        exact ih fun l hl ↦ hlines l (List.mem_append_left _ hl)

/-! ## Requests with special bytes -/

/-- Where the path is read or the bytes of the host stay, none is special. -/
structure NoSpecialByte (r : AbsoluteRequest) : Prop where
  path : ∀ c ∈ r.path.take maxUrlSize, ¬ShellSpecial c
  host : ∀ i c, Stays r.host (completeLines r.headers) i c →
    (∀ j < i, ∃ d, Stays r.host (completeLines r.headers) j d) → ¬ShellSpecial c

theorem forall_mem_withoutLastSlash {path : List UInt8} {P : UInt8 → Prop} (hslash : P 47) :
    (∀ c ∈ withoutLastSlash path, P c) ↔ ∀ c ∈ path, P c := by
  constructor
  · intro h c hc
    rcases withoutLastSlash_cases path with heq | heq
    · exact h c (heq ▸ hc)
    · rw [heq, List.mem_append, List.mem_singleton] at hc
      rcases hc with hc | rfl
      · exact h c hc
      · exact hslash
  · exact fun h c hc ↦ h c ((withoutLastSlash_isPrefix path).subset hc)

/-- The url that is looked up has no special byte if and only if the request has none where it
counts. -/
theorem literalCommand_request_iff (hnul : 0 ∉ r.bytes)
    (hzero : out.hostname = List.replicate (maxNameLength + 1) 0) (h : r.Leaves out out') :
    LiteralCommand (cstr out'.hostname 0 ++ cstr out'.path 0) ↔ NoSpecialByte r := by
  have hhost : 0 ∉ r.host := fun hmem ↦ hnul (r.line_subset (r.host_subset hmem))
  have hlines : ∀ line ∈ completeLines r.headers, 0 ∉ line := fun line hline hmem ↦
    hnul (r.headers_subset (completeLines_subset r.headers line hline hmem))
  have hbytes (i : ℕ) : out'.hostname.getD i 0 = hostAfter r.host (completeLines r.headers) i := by
    have hbyte := congrFun h.host i
    rwa [r.copiedHost_zeroed hzero] at hbyte
  have hstays {i : ℕ} {c : UInt8} : Stays r.host (completeLines r.headers) i c ↔
      out'.hostname.getD i 0 = c ∧ c ≠ 0 := by rw [stays_iff hhost hlines, hbytes]
  rw [literalCommand_iff, List.forall_mem_append, h.path,
    forall_mem_withoutLastSlash (P := fun c ↦ ¬ShellSpecial c) (by decide)]
  constructor
  · rintro ⟨hhostname, hpath⟩
    refine ⟨hpath, fun i c hc hbefore ↦ ?_⟩
    obtain ⟨rfl, hne⟩ := hstays.mp hc
    refine hhostname _ (mem_cstr_iff.mpr ⟨i, rfl, hne, fun j hj ↦ ?_⟩)
    obtain ⟨d, hd⟩ := hbefore j hj
    obtain ⟨rfl, hne⟩ := hstays.mp hd
    exact hne
  · intro hnone
    refine ⟨fun c hc ↦ ?_, hnone.path⟩
    obtain ⟨i, rfl, hne, hbefore⟩ := mem_cstr_iff.mp hc
    exact hnone.host i _ (hstays.mpr ⟨rfl, hne⟩) fun j hj ↦ ⟨_, hstays.mpr ⟨rfl, hbefore j hj⟩⟩

/-- A path that the shell would replace by what a command writes. -/
def substituteRequest : AbsoluteRequest :=
  httpRequest (text "GET") (text "a") (text "/$(id)") (text "HTTP/1.1") [] (by decide)

end HttpProxy
