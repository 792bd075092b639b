import HttpProxy.Relay

/-!
# Loops over the cached file

Serving a file and scanning it for links both read on from the position in the file.  Each
round moves the position forward, so what is left of the file bounds the number of rounds.
-/

namespace HttpProxy

open CString Interaction Protocol

variable {grant : Grant} {opened : Option FileHandle} {kind : Bool} {s : RelayState}
  {fuel : ℕ} {file : FileHandle} {hostname : List UInt8}

def OpenFile.left (file : OpenFile) : ℕ := file.content.length - file.position

theorem length_read (file : OpenFile) (size : ℕ) :
    (file.read size).length = min size file.left := by
  simp [OpenFile.read, OpenFile.left]

/-! ## Searching the buffer -/

theorem strchr_bounds {buffer : List UInt8} {p i : ℕ} {c : UInt8} (hc : c ≠ 0)
    (h : strchr buffer p c = some i) : p ≤ i ∧ i < buffer.length := by
  rw [strchr_of_ne_zero hc] at h
  obtain ⟨j, hj, rfl⟩ := Option.map_eq_some_iff.mp h
  obtain ⟨a, b, hsplit, -, rfl⟩ := split_of_idxOf? hj
  have hlen : (cstr buffer p).length ≤ (buffer.drop p).length :=
    (List.takeWhile_sublist _).length_le
  rw [hsplit] at hlen
  simp only [List.length_append, List.length_cons, List.length_drop] at hlen
  omega

/-- The search for a link comes to an end, and a link lies behind its `href=`. -/
theorem scanHref_ends {buffer : List UInt8} {found : Option ℕ}
    (hfound : ∀ i, found = some i → i < buffer.length ∧ buffer.length < fuel + i)
    (hfuel : 0 < fuel) :
    ∃ result, scanHref fuel buffer found = .ok result ∧
      ∀ start closingQuote, result = .link start closingQuote → 0 < closingQuote := by
  induction fuel generalizing found with
  | zero => omega
  | succ fuel ih =>
      cases found with
      | none => exact ⟨.noLink, rfl, by simp⟩
      | some foundH =>
          obtain ⟨hin, hleft⟩ := hfound foundH rfl
          unfold scanHref
          split
          · split
            next closingQuote hquote =>
              refine ⟨_, rfl, fun start quote h ↦ ?_⟩
              cases h
              have := strchr_bounds (by decide) hquote
              omega
            next => exact ⟨.unclosed, rfl, by simp⟩
          · refine ih (fun i hi ↦ ?_) (by omega)
            have := strchr_bounds (by decide) hi
            omega

theorem scanHref_first (buffer : List UInt8) :
    ∃ result, scanHref (buffer.length + 1) buffer (strchr buffer 0 104) = .ok result ∧
      ∀ start closingQuote, result = .link start closingQuote → 0 < closingQuote := by
  refine scanHref_ends (fun i hi ↦ ?_) (by omega)
  have := strchr_bounds (by decide) hi
  omega

/-! ## Scanning the file -/

/-- The file has only been read, and `s'` is not before `s`. -/
def ReadOn (s s' : RelayState) : Prop :=
  s'.file.content = s.file.content ∧ s.file.position ≤ s'.file.position ∧
    s'.serverClosed = s.serverClosed

/-- A search ends out of bounds, at the end of the file, or further on in the file. -/
def Searched (s s' : RelayState) (out : Except Fault HrefResult) : Prop :=
  ReadOn s s' ∧ (out = .error .outOfBounds ∨ out = .ok .finished ∨
    (∃ result, out = .ok result) ∧ s'.file.left < s.file.left)

theorem keeps_findHrefLoop_ends {fileBuffer : List UInt8} (hfuel : s.file.left < fuel) :
    (relaying grant opened kind).Keeps (findHrefLoop fuel file fileBuffer) (Searched s) s := by
  induction fuel generalizing s fileBuffer with
  | zero => omega
  | succ fuel ih =>
      simp only [findHrefLoop, fread_bind, keeps_call]
      refine ⟨trivial, fun bytes hbytes ↦ ?_⟩
      have hlen : bytes.val.length = min maxUrlSize s.file.left := by
        rw [show bytes.val = s.file.read maxUrlSize from hbytes, length_read]
      split
      · exact ⟨⟨rfl, Nat.le_add_right _ _, rfl⟩, .inr (.inl rfl)⟩
      next hne =>
        have hpos : 0 < bytes.val.length := List.length_pos_iff.mpr hne
        obtain ⟨result, hscan, hlink⟩ :=
          scanHref_first (bytes.val ++ fileBuffer.drop bytes.val.length)
        rw [hscan]
        cases result with
        | noLink =>
            refine (ih (s := RelayState.next s (.fread file maxUrlSize) bytes) ?_).mono ?_
            · simp only [OpenFile.left, RelayState.next] at *
              omega
            · rintro s' out ⟨⟨hcontent, hposition, hclosed⟩, hout⟩
              simp only [OpenFile.left, RelayState.next] at *
              refine ⟨⟨hcontent, by omega, hclosed⟩, hout.imp_right (Or.imp_right ?_)⟩
              rintro ⟨hok, hleft⟩
              refine ⟨hok, ?_⟩
              simp only [OpenFile.left] at *
              omega
        | unclosed =>
            refine ⟨⟨rfl, Nat.le_add_right _ _, rfl⟩, .inr (.inr ⟨⟨_, rfl⟩, ?_⟩)⟩
            simp only [OpenFile.left, relaying, RelayState.next] at *
            omega
        | link start closingQuote =>
            have hquote := hlink start closingQuote rfl
            simp only [Prog.lift_ok, Prog.ret_bind]
            split
            · exact ⟨⟨rfl, Nat.le_add_right _ _, rfl⟩, .inl rfl⟩
            · simp only [fseek_bind, keeps_call]
              refine ⟨trivial, fun _ _ ↦ ⟨⟨rfl, ?_, rfl⟩, .inr (.inr ⟨⟨_, rfl⟩, ?_⟩)⟩⟩
              · simp only [relaying, RelayState.next, OpenFile.seek]
                omega
              · simp only [OpenFile.left, relaying, RelayState.next, OpenFile.seek] at *
                omega

theorem keeps_dispatchLoop_ends (hfuel : s.file.left + 1 < fuel) :
    (relaying grant opened kind).Keeps (dispatchLoop fuel file hostname)
      (fun s' out ↦ s'.serverClosed = s.serverClosed ∧
        (out = .ok () ∨ out = .error .outOfBounds)) s := by
  induction fuel generalizing s with
  | zero => omega
  | succ fuel ih =>
      have hfind : (relaying grant opened kind).Keeps (findHref fuel file) (Searched s) s := by
        simp only [findHref, indeterminate_bind, keeps_call]
        exact ⟨trivial, fun fileBuffer _ ↦ keeps_findHrefLoop_ends (by omega)⟩
      apply hfind.bind
      · rintro s₁ result ⟨⟨-, -, hclosed⟩, hout⟩
        cases result with
        | finished => exact ⟨hclosed, .inl rfl⟩
        | fail =>
            have hleft : s₁.file.left < s.file.left := by simpa using hout
            rw [← hclosed]
            exact ih (by omega)
        | success foundLink =>
            have hleft : s₁.file.left < s.file.left := by simpa using hout
            simp only
            split
            · simp only [jobStackPushJob_bind, keeps_call]
              refine ⟨trivial, fun _ _ ↦ ?_⟩
              rw [← hclosed]
              exact ih (s := s₁) (by omega)
            · rw [← hclosed]
              exact ih (by omega)
      · rintro s₁ fault ⟨⟨-, -, hclosed⟩, hout⟩
        refine ⟨hclosed, .inr ?_⟩
        simpa using hout

theorem keeps_dispatchPrefetchJobs_ends (hfuel : s.file.content.length + 1 < fuel) :
    (relaying grant opened kind).Keeps (dispatchPrefetchJobs fuel (some file) hostname)
      (fun s' out ↦ s'.serverClosed = s.serverClosed ∧
        (out = .ok () ∨ out = .error .outOfBounds)) s := by
  simp only [dispatchPrefetchJobs, nonNullFile, Prog.ret_bind, fseek_bind, keeps_call]
  refine ⟨trivial, fun answer _ ↦ ?_⟩
  apply keeps_dispatchLoop_ends (s := RelayState.next s (.fseek file .start 0) answer)
  simpa [RelayState.next, OpenFile.seek, OpenFile.left] using hfuel

/-! ## Serving the file -/

/-- Sending ends, one way or the other, and moves nothing else. -/
def Sent (s s' : RelayState) (out : Except Fault Status) : Prop :=
  (∃ status, out = .ok status) ∧ s' = { s with toClient := s'.toClient }

theorem keeps_sendLoop_ends {socket : Socket} (rest : List UInt8) (hfuel : rest.length ≤ fuel) :
    (relaying grant opened kind).Keeps (sendLoop socket fuel rest) (Sent s) s := by
  induction fuel generalizing s rest with
  | zero =>
      obtain rfl : rest = [] := List.length_eq_zero_iff.mp (by omega)
      exact ⟨⟨_, rfl⟩, rfl⟩
  | succ fuel ih =>
      cases rest with
      | nil => exact ⟨⟨_, rfl⟩, rfl⟩
      | cons c rest =>
          simp only [sendLoop, peek_bind, send_bind, keeps_call]
          refine ⟨trivial, fun alive _ ↦ ?_⟩
          split
          · exact ⟨⟨_, rfl⟩, rfl⟩
          · rw [keeps_call]
            refine ⟨trivial, fun sent _ ↦ ?_⟩
            cases sent with
            | none => exact ⟨⟨_, rfl⟩, rfl⟩
            | some n =>
                have hpos := n.property.1
                refine (ih _ ?_).mono ?_
                · simp only [List.length_drop, List.length_cons] at hfuel ⊢
                  omega
                · rintro s' out ⟨hout, hs'⟩
                  refine ⟨hout, ?_⟩
                  rw [hs']
                  cases socket <;> rfl

theorem keeps_trySendInChunks_ends {socket : Socket} (bytes : List UInt8) (length : ℤ) :
    (relaying grant opened kind).Keeps (trySendInChunks socket bytes length) (Sent s) s := by
  unfold trySendInChunks
  split
  · exact ⟨⟨_, rfl⟩, rfl⟩
  · exact keeps_sendLoop_ends _ (List.length_take_le _ _)

theorem keeps_sendCachedLoop_ends {socket : Socket} (hfuel : s.file.left < fuel) :
    (relaying grant opened kind).Keeps (sendCachedLoop fuel socket file)
      (fun s' out ↦ (∃ status, out = .ok status) ∧ s'.file.content = s.file.content) s := by
  induction fuel generalizing s with
  | zero => omega
  | succ fuel ih =>
      simp only [sendCachedLoop, fread_bind, keeps_call]
      refine ⟨trivial, fun bytes hbytes ↦ ?_⟩
      have hlen : bytes.val.length = min jobRequestBufferSize s.file.left := by
        rw [show bytes.val = s.file.read jobRequestBufferSize from hbytes, length_read]
      split
      · exact ⟨⟨_, rfl⟩, rfl⟩
      next hne =>
        have hpos : 0 < bytes.val.length := List.length_pos_iff.mpr hne
        apply (keeps_trySendInChunks_ends _ _).bind
        · rintro s₁ status ⟨-, hs₁⟩
          have hfile : s₁.file =
              (RelayState.next s (.fread file jobRequestBufferSize) bytes).file := by rw [hs₁]; rfl
          split
          · exact ⟨⟨_, rfl⟩, by rw [hfile]; rfl⟩
          · refine (ih (s := s₁) ?_).mono ?_
            · rw [hfile]
              simp only [OpenFile.left, RelayState.next] at *
              omega
            · rintro s' out ⟨hout, hcontent⟩
              exact ⟨hout, by rw [hcontent, hfile]; rfl⟩
        · rintro s₁ fault ⟨⟨status, hstatus⟩, -⟩
          simp at hstatus

end HttpProxy
