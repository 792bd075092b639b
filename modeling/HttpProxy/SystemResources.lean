import HttpProxy.BlockedHosts
import HttpProxy.Lib.Ledger
import HttpProxy.RequestBuffer

/-!
# Sockets, files and address lists

What `process_job` takes from the operating system and gives back, as a ledger of its calls.  The
ledger is balanced unless the request fails between the connection and the second `recv` from the
server, or `resolve_host` has moved past the head of the address list.
-/

namespace HttpProxy

open CString Interaction Protocol Ledger

variable {fuel : ℕ} {locals : Locals} {table : BlockTable} {job : Job} {socket : Socket} {fd : ℤ}
  {file : FileHandle} {cacheFile : Option FileHandle} {grant : Grant}
  {serverAddress : Address} {path hostname : List UInt8} {addresses : List Address}
  {tr tr' : Trace} {status : Status}

/-! ## Resources -/

/-- A node of an address list is told by the list from it on. -/
inductive Resource where
  | socket (fd : ℤ)
  | file (file : FileHandle)
  | node (addresses : List Address)
  deriving DecidableEq, Repr

/-- The nodes that are freed with a list. -/
def nodes : List Address → List Resource
  | [] => []
  | address :: rest => .node (address :: rest) :: nodes rest

theorem mem_nodes {r : Resource} :
    r ∈ nodes addresses ↔ ∃ l, r = .node l ∧ l ≠ [] ∧ l <:+ addresses := by
  induction addresses with
  | nil => simp +contextual [nodes]
  | cons address rest ih =>
      rw [nodes, List.mem_cons, ih]
      constructor
      · rintro (rfl | ⟨l, rfl, hne, hsuffix⟩)
        · exact ⟨_, rfl, by simp, List.suffix_rfl⟩
        · exact ⟨l, rfl, hne, hsuffix.trans (List.suffix_cons _ _)⟩
      · rintro ⟨l, rfl, hne, hsuffix⟩
        rcases List.suffix_cons_iff.mp hsuffix with rfl | hrest
        · exact .inl rfl
        · exact .inr ⟨l, rfl, hne, hrest⟩

theorem nodup_nodes (addresses : List Address) : (nodes addresses).Nodup := by
  induction addresses with
  | nil => exact List.nodup_nil
  | cons address rest ih =>
      refine List.nodup_cons.mpr ⟨fun hmem ↦ ?_, ih⟩
      obtain ⟨l, hl, -, hsuffix⟩ := mem_nodes.mp hmem
      obtain rfl := Resource.node.inj hl
      have hlength := hsuffix.length_le
      rw [List.length_cons] at hlength
      omega

/-- Freeing a list from some node on frees all of its nodes only from the head on. -/
theorem nodes_freed_iff {freed : List Address} (hne : addresses ≠ []) (h : freed <:+ addresses) :
    (∀ r ∈ nodes addresses, (nodes freed).count r = 1) ↔ freed = addresses := by
  constructor
  · intro hall
    have hhead := hall (.node addresses) (mem_nodes.mpr ⟨_, rfl, hne, List.suffix_rfl⟩)
    have hmem : .node addresses ∈ nodes freed := List.count_pos_iff.mp (by omega)
    obtain ⟨l, hl, -, hsuffix⟩ := mem_nodes.mp hmem
    obtain rfl := Resource.node.inj hl
    exact h.eq_of_length (Nat.le_antisymm h.length_le hsuffix.length_le)
  · rintro rfl r hr
    rw [(nodup_nodes _).count, if_pos hr]

/-! ## What is read off a call -/

/-- A socket call that fails opens nothing. -/
def entries : (op : Op) → Resp op → List (Entry Resource)
  | .socket, fd => if (fd : ℤ) = -1 then [] else [.acquire (.socket fd)]
  | .close fd, _ => [.release (.socket fd)]
  | .fopen _ _, some file => [.acquire (.file file)]
  | .fclose file, _ => [.release (.file file)]
  | .getaddrinfo _ _, some addresses => (nodes addresses.val).map .acquire
  | .freeaddrinfo addresses, _ => (nodes addresses).map .release
  | _, _ => []

def ledger (tr : Trace) : List (Entry Resource) := tr.flatMap fun e ↦ entries e.1 e.2

/-- What a request can meet: an open socket is not connected, the server or the client is found
gone or takes nothing more, or something has been received from the server. -/
inductive Incident where
  | refused
  | serverLost
  | clientLost
  | received
  deriving DecidableEq, Repr

def lost : Socket → Incident
  | .client _ => .clientLost
  | .server _ => .serverLost

def incidentsOf : (op : Op) → Resp op → List Incident
  | .connect fd _, false => if fd = -1 then [] else [.refused]
  | .peek socket, received => if received.length = 0 then [lost socket] else []
  | .send socket _, none => [lost socket]
  | .recv (.server _) _ _, _ => [.received]
  | _, _ => []

def incidents (tr : Trace) : List Incident := tr.flatMap fun e ↦ incidentsOf e.1 e.2

def lookupsOf : (op : Op) → Resp op → List (List Address)
  | .getaddrinfo _ _, some addresses => [addresses.val]
  | _, _ => []

/-- The address lists that were returned. -/
def lookups (tr : Trace) : List (List Address) := tr.flatMap fun e ↦ lookupsOf e.1 e.2

section

variable (op : Op) (r : Resp op) (tr : Trace)

theorem ledger_cons : ledger (⟨op, r⟩ :: tr) = entries op r ++ ledger tr := List.flatMap_cons

theorem incidents_cons : incidents (⟨op, r⟩ :: tr) = incidentsOf op r ++ incidents tr :=
  List.flatMap_cons

theorem lookups_cons : lookups (⟨op, r⟩ :: tr) = lookupsOf op r ++ lookups tr := List.flatMap_cons

end

/-- `connect` does not succeed on what is not a socket; everything else is left open. -/
def operatingSystem : Protocol Resp Unit where
  requires _ _ := True
  answers _ op answer :=
    match op, answer with
    | .connect fd _, answer => (answer : Bool) = true → fd ≠ -1
    | _, _ => True
  next _ _ _ := ()

/-- The first address is not blocked, or each one is. -/
def HeadServes (table : BlockTable) (addresses : List Address) : Prop :=
  (∀ address ∈ addresses, blockTableCheck table (inetNtop address) = true) ∨
    ∀ address, addresses.head? = some address → blockTableCheck table (inetNtop address) = false

/-- The server is connected and takes the request, and the client takes what has been received
first before anything else is. -/
def Orderly (is : List Incident) : Prop :=
  .refused ∉ is ∧ .serverLost ∉ is ∧ ¬[.received, .clientLost] <+: is

/-! ## Parts of a request -/

/-- The entries and the incidents of a part of a request that looks no host up. -/
structure Records (tr : Trace) (l : List (Entry Resource)) (is : List Incident) : Prop where
  ledger : ledger tr = l
  incidents : incidents tr = is
  lookups : lookups tr = []

namespace Records

variable {l l' : List (Entry Resource)} {is is' : List Incident}

theorem nil : Records [] [] [] := ⟨rfl, rfl, rfl⟩

theorem append (h : Records tr l is) (h' : Records tr' l' is') :
    Records (tr ++ tr') (l ++ l') (is ++ is') := by
  refine ⟨?_, ?_, ?_⟩
  · rw [← h.ledger, ← h'.ledger]
    exact List.flatMap_append
  · rw [← h.incidents, ← h'.incidents]
    exact List.flatMap_append
  · have happend : HttpProxy.lookups (tr ++ tr') =
        HttpProxy.lookups tr ++ HttpProxy.lookups tr' := List.flatMap_append
    rw [happend, h.lookups, h'.lookups, List.append_nil]

theorem cons (h : Records tr l is) (op : Op) (r : Resp op) (hlookup : lookupsOf op r = []) :
    Records (⟨op, r⟩ :: tr) (entries op r ++ l) (incidentsOf op r ++ is) := by
  refine ⟨?_, ?_, ?_⟩
  · rw [ledger_cons, h.ledger]
  · rw [incidents_cons, h.incidents]
  · rw [lookups_cons, hlookup, h.lookups, List.append_nil]

end Records

/-- A call that leaves no trace in the ledger. -/
def OffLedger (op : Op) : Prop :=
  ∀ r, entries op r = [] ∧ incidentsOf op r = [] ∧ lookupsOf op r = []

theorem records_offLedger (h : ∀ e ∈ tr, OffLedger e.1) : Records tr [] [] := by
  induction tr with
  | nil => exact .nil
  | cons e tr ih =>
      obtain ⟨hentries, hincidents, hlookup⟩ := h e List.mem_cons_self e.2
      have htail := (ih fun e' he ↦ h e' (List.mem_cons_of_mem _ he)).cons _ _ hlookup
      rwa [hentries, hincidents] at htail

theorem offLedger_of_scansLinks {op : Op} (h : ScansLinks op) : OffLedger op := by
  intro r
  cases op <;> first | exact ⟨rfl, rfl, rfl⟩ | cases h

theorem offLedger_of_readsRequest {fd : ℤ} {op : Op} (h : ReadsRequest fd op) : OffLedger op := by
  intro r
  cases op with
  | time => exact ⟨rfl, rfl, rfl⟩
  | recv socket size dontWait =>
      obtain rfl : socket = .client fd := h
      exact ⟨rfl, rfl, rfl⟩
  | _ => cases h

/-! ## Sending -/

/-- A send ends well, or with the other side gone. -/
def SendRecords (socket : Socket) (tr : Trace) (status : Status) : Prop :=
  status = .success ∧ Records tr [] [] ∨ status = .fail ∧ Records tr [] [lost socket]

theorem SendRecords.map (h : SendRecords socket tr status)
    (hmap : ∀ is, Records tr [] is → Records tr' [] is) : SendRecords socket tr' status :=
  h.imp (And.imp_right (hmap _)) (And.imp_right (hmap _))

theorem run_sendLoop_records {rest : List UInt8}
    (h : operatingSystem.Run () (sendLoop socket fuel rest) tr () (.ok status)) :
    SendRecords socket tr status := by
  induction fuel generalizing rest tr with
  | zero =>
      cases rest with
      | nil =>
          obtain ⟨rfl, -, hout⟩ := run_ret.mp h
          exact .inl ⟨Except.ok.inj hout, .nil⟩
      | cons c rest => cases (run_halt.mp h).2.2
  | succ fuel ih =>
      cases rest with
      | nil =>
          obtain ⟨rfl, -, hout⟩ := run_ret.mp h
          exact .inl ⟨Except.ok.inj hout, .nil⟩
      | cons c rest =>
          simp only [sendLoop, peek_bind, send_bind, run_call] at h
          obtain ⟨alive, tr, -, rfl, h⟩ := h
          split at h
          next hgone =>
            obtain ⟨rfl, -, hout⟩ := run_ret.mp h
            have hrecords := Records.nil.cons (.peek socket) alive rfl
            rw [incidentsOf, if_pos hgone] at hrecords
            exact .inr ⟨Except.ok.inj hout, hrecords⟩
          next halive =>
            have hpeek {tr : Trace} {is : List Incident} (hrest : Records tr [] is) :
                Records (⟨.peek socket, alive⟩ :: tr) [] is := by
              have hincident : incidentsOf (.peek socket) alive = [] := if_neg halive
              have hrecords := hrest.cons (.peek socket) alive rfl
              rwa [hincident] at hrecords
            rw [run_call] at h
            obtain ⟨sent, tr, -, rfl, h⟩ := h
            cases sent with
            | none =>
                obtain ⟨rfl, -, hout⟩ := run_ret.mp h
                exact .inr ⟨Except.ok.inj hout, hpeek (Records.nil.cons _ _ rfl)⟩
            | some n =>
                have hsend {is : List Incident} (hrest : Records tr [] is) :
                    Records (⟨.send socket (c :: rest), some n⟩ :: tr) [] is := hrest.cons _ _ rfl
                exact (ih h).map fun _ hrest ↦ hpeek (hsend hrest)

theorem run_trySendInChunks_records {buffer : List UInt8} {length : ℤ}
    (h : operatingSystem.Run () (trySendInChunks socket buffer length) tr () (.ok status)) :
    SendRecords socket tr status := by
  unfold trySendInChunks at h
  split at h
  · obtain ⟨rfl, -, hout⟩ := run_ret.mp h
    exact .inl ⟨Except.ok.inj hout, .nil⟩
  · exact run_sendLoop_records h

theorem run_cacheAndSend_records {buffer : List UInt8} {length : ℤ}
    (h : operatingSystem.Run () (cacheAndSend socket cacheFile buffer length) tr ()
      (.ok status)) : SendRecords socket tr status := by
  cases cacheFile with
  | none => exact run_trySendInChunks_records h
  | some file =>
      simp only [cacheAndSend] at h
      split at h
      · cases (run_halt.mp h).2.2
      · simp only [fwrite_bind, run_call] at h
        obtain ⟨⟨⟩, tr, -, rfl, h⟩ := h
        exact (run_trySendInChunks_records h).map fun _ hrest ↦ hrest.cons _ _ rfl

/-! ## Fetching -/

/-- Behind the first chunk the client is lost only after something more has been received. -/
structure BehindFirst (is : List Incident) : Prop where
  starts : is.head? ≠ some .clientLost
  connected : .refused ∉ is
  taken : .serverLost ∉ is

theorem BehindFirst.orderly {is : List Incident} (h : BehindFirst is) :
    Orderly (.received :: is) := by
  refine ⟨?_, ?_, ?_⟩
  · simpa using h.connected
  · simpa using h.taken
  · rintro ⟨rest, hrest⟩
    obtain rfl := (List.cons.inj hrest).2
    exact h.starts rfl

theorem run_relayLoop_records {serverSocketFd contentLength contentRead : ℤ}
    (h : operatingSystem.Run () (relayLoop fuel serverSocketFd (.client fd) cacheFile contentLength
      contentRead) tr () (.ok ())) : ∃ is, Records tr [] is ∧ BehindFirst is := by
  have hnothing : BehindFirst [] := ⟨by simp, by simp, by simp⟩
  induction fuel generalizing contentRead tr with
  | zero => cases (run_halt.mp h).2.2
  | succ fuel ih =>
      simp only [relayLoop, recv_bind] at h
      split at h
      next =>
        rw [run_call] at h
        obtain ⟨received, tr, -, rfl, h⟩ := h
        split at h
        · cases (run_halt.mp h).2.2
        · obtain ⟨status, tr₁, ⟨⟩, tr₂, hsend, h, rfl⟩ := h.bind_ok
          rcases run_cacheAndSend_records hsend with ⟨rfl, hsent⟩ | ⟨rfl, hsent⟩
          · rw [if_neg (by decide)] at h
            obtain ⟨is, hrest, hbehind⟩ := ih h
            refine ⟨_, (hsent.append hrest).cons _ _ rfl, ?_, ?_, ?_⟩
            · simp [incidentsOf]
            · simpa [incidentsOf] using hbehind.connected
            · simpa [incidentsOf] using hbehind.taken
          · rw [if_pos rfl] at h
            obtain ⟨rfl, -, -⟩ := run_ret.mp h
            refine ⟨_, (hsent.append .nil).cons _ _ rfl, ?_, ?_, ?_⟩ <;> simp [incidentsOf, lost]
      next =>
        obtain ⟨rfl, -, -⟩ := run_ret.mp h
        exact ⟨[], .nil, hnothing⟩

theorem run_relayRest_records {serverSocketFd bytesRead : ℤ} {lengths : ℤ × ℤ}
    (h : operatingSystem.Run () (relayRest fuel serverSocketFd (.client fd) cacheFile lengths
      bytesRead) tr () (.ok ())) : ∃ is, Records tr [] is ∧ BehindFirst is := by
  unfold relayRest at h
  split at h
  · cases (run_halt.mp h).2.2
  · split at h
    · exact run_relayLoop_records h
    · obtain ⟨rfl, -, -⟩ := run_ret.mp h
      exact ⟨[], .nil, by simp, by simp, by simp⟩

/-- The file that is closed, if there is one. -/
def closes (cacheFile : Option FileHandle) : List (Entry Resource) :=
  cacheFile.toList.map fun file ↦ .release (.file file)

def finishes (grant : Grant) (cacheFile : Option FileHandle) : List (Entry Resource) :=
  match grant with
  | .shouldWrite _ => closes cacheFile
  | _ => []

theorem run_dispatchForClient_records
    (h : operatingSystem.Run () (dispatchForClient fuel job cacheFile hostname) tr () (.ok ())) :
    Records tr [] [] := by
  have hcalls : (dispatchForClient fuel job cacheFile hostname).Calls OffLedger := by
    unfold dispatchForClient
    split
    · exact (dispatchPrefetchJobs_calls _ _ _).mono fun _ ↦ offLedger_of_scansLinks
    · trivial
  exact records_offLedger (h.calls hcalls)

theorem run_finishRelay_records
    (h : operatingSystem.Run () (finishRelay fuel job grant cacheFile hostname) tr ()
      (.ok status)) : Records tr (finishes grant cacheFile) [] := by
  cases grant with
  | unavailable record =>
      obtain ⟨rfl, -, -⟩ := run_ret.mp h
      exact .nil
  | shouldRead record =>
      obtain ⟨rfl, -, -⟩ := run_ret.mp h
      exact .nil
  | shouldWrite record =>
      obtain ⟨⟨⟩, tr₁, ⟨⟩, tr₂, hwrite, hend, rfl⟩ := h.bind_ok
      obtain ⟨rfl, -, -⟩ := run_ret.mp hend
      obtain ⟨⟨⟩, tr₃, ⟨⟩, tr₄, hscan, hclose, rfl⟩ := hwrite.bind_ok
      have hquiet := run_dispatchForClient_records hscan
      cases cacheFile with
      | none => cases (run_halt.mp hclose).2.2
      | some file =>
          simp only [nonNullFile, Prog.ret_bind, fclose_bind, run_call] at hclose
          obtain ⟨⟨⟩, tr, -, rfl, hrecord⟩ := hclose
          simp only [cacheRecordClose, Prog.perform, run_call] at hrecord
          obtain ⟨⟨⟩, tr, -, rfl, hend⟩ := hrecord
          obtain ⟨rfl, -, -⟩ := run_ret.mp hend
          rw [List.append_nil]
          exact hquiet.append ((Records.nil.cons _ _ rfl).cons _ _ rfl)

theorem run_closeIfOpen_records
    (h : operatingSystem.Run () (closeIfOpen cacheFile) tr () (.ok ())) :
    Records tr (closes cacheFile) [] := by
  cases cacheFile with
  | none =>
      obtain ⟨rfl, -, -⟩ := run_ret.mp h
      exact .nil
  | some file =>
      simp only [closeIfOpen, fclose, Prog.perform, run_call] at h
      obtain ⟨⟨⟩, tr, -, rfl, h⟩ := h
      obtain ⟨rfl, -, -⟩ := run_ret.mp h
      exact Records.nil.cons _ _ rfl

/-- How a fetch ends that returns. -/
inductive FetchEntries (grant : Grant) (cacheFile : Option FileHandle) :
    List (Entry Resource) → List Incident → Prop
  | noSocket : FetchEntries grant cacheFile (closes cacheFile) []
  | refused (fd : ℤ) :
      FetchEntries grant cacheFile (.acquire (.socket fd) :: closes cacheFile) [.refused]
  | unsent (fd : ℤ) :
      FetchEntries grant cacheFile (.acquire (.socket fd) :: closes cacheFile) [.serverLost]
  | unrelayed (fd : ℤ) :
      FetchEntries grant cacheFile [.acquire (.socket fd)] [.received, .clientLost]
  | relayed (fd : ℤ) {is : List Incident} (h : BehindFirst is) :
      FetchEntries grant cacheFile
        (.acquire (.socket fd) :: .release (.socket fd) :: finishes grant cacheFile)
        (.received :: is)

theorem run_relayResponse_records {serverSocketFd : ℤ}
    (h : operatingSystem.Run () (relayResponse fuel job grant cacheFile serverSocketFd hostname)
      tr () (.ok status)) :
    Records tr [] [.received, .clientLost] ∨
      ∃ is, Records tr (.release (.socket serverSocketFd) :: finishes grant cacheFile)
        (.received :: is) ∧ BehindFirst is := by
  simp only [relayResponse, recv_bind, run_call] at h
  obtain ⟨received, tr, -, rfl, h⟩ := h
  cases hparse : parseResponseHeader (responseBuffer received.bytes) with
  | error fault =>
      rw [hparse] at h
      cases (run_halt.mp h).2.2
  | ok lengths =>
      rw [hparse, Prog.lift_ok, Prog.ret_bind] at h
      obtain ⟨result, tr₁, ⟨⟩, tr₂, hsend, hafter, rfl⟩ := h.bind_ok
      rcases run_cacheAndSend_records hsend with ⟨rfl, hsent⟩ | ⟨rfl, hsent⟩
      · rw [if_neg (by decide)] at hafter
        obtain ⟨⟨⟩, tr₃, ⟨⟩, tr₄, hrelay, hclose, rfl⟩ := hafter.bind_ok
        obtain ⟨is, hrest, hbehind⟩ := run_relayRest_records hrelay
        rw [close_bind, run_call] at hclose
        obtain ⟨⟨⟩, tr, -, rfl, hfinish⟩ := hclose
        have hclosed := (run_finishRelay_records hfinish).cons (.close serverSocketFd) () rfl
        have hrecords := (hsent.append (hrest.append hclosed)).cons
          (.recv (.server serverSocketFd) jobRequestBufferSize false) received rfl
        refine .inr ⟨is, ?_, hbehind⟩
        simpa [entries, incidentsOf] using hrecords
      · rw [if_pos rfl] at hafter
        obtain ⟨rfl, -, -⟩ := run_ret.mp hafter
        exact .inl ((hsent.append .nil).cons _ _ rfl)

theorem run_fetch_records
    (h : operatingSystem.Run () (fetch fuel job grant cacheFile serverAddress path hostname) tr ()
      (.ok status)) : ∃ l is, Records tr l is ∧ FetchEntries grant cacheFile l is := by
  have hgive {tr : Trace} (h : operatingSystem.Run ()
      (closeIfOpen cacheFile >>= fun _ ↦ .ret Status.fail) tr () (.ok status)) :
      Records tr (closes cacheFile) [] := by
    obtain ⟨⟨⟩, tr₁, ⟨⟩, tr₂, hclose, hend, rfl⟩ := h.bind_ok
    obtain ⟨rfl, -, -⟩ := run_ret.mp hend
    rw [List.append_nil]
    exact run_closeIfOpen_records hclose
  simp only [fetch, newSocket_bind, connect_bind, run_call] at h
  obtain ⟨fd, tr, -, rfl, connected, tr, hconnect, rfl, h⟩ := h
  have hopen {l : List (Entry Resource)} {is : List Incident} (hfd : fd ≠ -1)
      (hrest : Records tr l is) :
      Records (⟨.socket, fd⟩ :: ⟨.connect fd serverAddress, connected⟩ :: tr)
        (.acquire (.socket fd) :: l) (incidentsOf (.connect fd serverAddress) connected ++ is) := by
    have hentries : entries .socket fd = [.acquire (.socket fd)] := if_neg hfd
    have hrecords := (hrest.cons (.connect fd serverAddress) connected rfl).cons .socket fd rfl
    rwa [hentries] at hrecords
  cases connected with
  | false =>
      rw [if_pos rfl] at h
      by_cases hfd : fd = -1
      · have hrecords := ((hgive h).cons (.connect fd serverAddress) false rfl).cons .socket fd rfl
        have hentries : entries .socket fd = [] := if_pos hfd
        have hincident : incidentsOf (.connect fd serverAddress) false = [] := if_pos hfd
        rw [hentries, hincident] at hrecords
        exact ⟨_, _, hrecords, .noSocket⟩
      · have hincident : incidentsOf (.connect fd serverAddress) false = [.refused] := if_neg hfd
        have hrecords := hopen hfd (hgive h)
        rw [hincident] at hrecords
        exact ⟨_, _, hrecords, .refused fd⟩
  | true =>
      have hfd : fd ≠ -1 := hconnect rfl
      rw [if_neg (by decide)] at h
      obtain ⟨result, tr₁, ⟨⟩, tr₂, hsend, h, rfl⟩ := h.bind_ok
      rcases run_trySendInChunks_records hsend with ⟨rfl, hsent⟩ | ⟨rfl, hsent⟩
      · rw [if_neg (by decide)] at h
        rcases run_relayResponse_records h with hlost | ⟨is, hwhole, hbehind⟩
        · exact ⟨_, _, hopen hfd (hsent.append hlost), .unrelayed fd⟩
        · exact ⟨_, _, hopen hfd (hsent.append hwhole), .relayed fd hbehind⟩
      · rw [if_pos rfl] at h
        exact ⟨_, _, hopen hfd (hsent.append (hgive h)), .unsent fd⟩

/-! ## Serving -/

/-- The entries of a request behind the lookup of its host are balanced if it was orderly, and they
leave the address list alone. -/
structure ServeRecords (l : List (Entry Resource)) (is : List Incident) : Prop where
  balanced_iff : Balanced l ↔ Orderly is
  keeps : ∀ addresses, .acquire (.node addresses) ∉ l
  frees : ∀ addresses, releases (.node addresses) l = 0

theorem serveRecords_nil : ServeRecords [] [] := ⟨by simp [Orderly], by simp, by simp⟩

theorem serveRecords_clientLost : ServeRecords [] [.clientLost] :=
  ⟨by simp [Orderly], by simp, by simp⟩

/-- The part of the ledger that closes files and does nothing else. -/
def ClosesFiles (l : List (Entry Resource)) : Prop := ∀ e ∈ l, ∃ file, e = .release (.file file)

namespace ClosesFiles

variable {l : List (Entry Resource)}

theorem acquire_notMem (h : ClosesFiles l) (r : Resource) : .acquire r ∉ l := by
  intro hmem
  obtain ⟨file, ⟨⟩⟩ := h _ hmem

theorem balanced (h : ClosesFiles l) : Balanced l := balanced_of_releases h.acquire_notMem

theorem releases_eq_zero (h : ClosesFiles l) {r : Resource} (hr : ∀ file, r ≠ .file file) :
    releases r l = 0 := by
  apply List.count_eq_zero.mpr
  intro hmem
  obtain ⟨file, hfile⟩ := h _ hmem
  exact hr file (Entry.release.inj hfile)

end ClosesFiles

theorem closesFiles_closes (cacheFile : Option FileHandle) : ClosesFiles (closes cacheFile) := by
  cases cacheFile <;> simp [ClosesFiles, closes]

theorem closesFiles_finishes (grant : Grant) (cacheFile : Option FileHandle) :
    ClosesFiles (finishes grant cacheFile) := by
  cases grant with
  | shouldWrite record => exact closesFiles_closes cacheFile
  | _ => simp [ClosesFiles, finishes]

theorem FetchEntries.serveRecords {l : List (Entry Resource)} {is : List Incident}
    (h : FetchEntries grant cacheFile l is) : ServeRecords l is := by
  have hcloses := closesFiles_closes cacheFile
  have hfinishes := closesFiles_finishes grant cacheFile
  -- An open socket in front of closed files is kept.
  have hkept {fd : ℤ} {is : List Incident} (his : ¬Orderly is) :
      ServeRecords (.acquire (.socket fd) :: closes cacheFile) is := by
    refine ⟨iff_of_false ?_ his, fun addresses ↦ ?_, fun addresses ↦ ?_⟩
    · rw [balanced_acquire, hcloses.releases_eq_zero (by simp)]
      simp
    · simpa using hcloses.acquire_notMem (.node addresses)
    · rw [releases_acquire, hcloses.releases_eq_zero (by simp)]
  cases h with
  | noSocket =>
      have hquiet : Balanced (closes cacheFile) ↔ Orderly [] :=
        iff_of_true hcloses.balanced (by simp [Orderly])
      exact ⟨hquiet, fun _ ↦ hcloses.acquire_notMem _, fun _ ↦ hcloses.releases_eq_zero (by simp)⟩
  | refused fd => exact hkept (by simp [Orderly])
  | unsent fd => exact hkept (by simp [Orderly])
  | unrelayed fd => exact ⟨by simp [Orderly], by simp, by simp⟩
  | relayed fd hbehind =>
      refine ⟨iff_of_true ?_ hbehind.orderly, fun addresses ↦ ?_, fun addresses ↦ ?_⟩
      · rw [balanced_acquire, releases_release, if_pos rfl, balanced_release,
          hfinishes.releases_eq_zero (by simp)]
        exact ⟨rfl, hfinishes.balanced⟩
      · simpa using hfinishes.acquire_notMem (.node addresses)
      · simpa using hfinishes.releases_eq_zero (r := .node addresses) (by simp)

/-- A writer's fetch closes the file it has opened exactly where it gives the socket back. -/
theorem FetchEntries.serveRecords_file {record : RecordRef} {l : List (Entry Resource)}
    {is : List Incident} (h : FetchEntries (.shouldWrite record) (some file) l is) :
    ServeRecords (.acquire (.file file) :: l) is := by
  have hserved := h.serveRecords
  refine ⟨?_, by simpa using hserved.keeps, by simpa using hserved.frees⟩
  rw [balanced_acquire, hserved.balanced_iff]
  cases h with
  | unrelayed fd => simp [Orderly]
  | relayed fd hbehind => simp [finishes, closes]
  | _ => simp [closes]

theorem run_sendCachedLoop_records
    (h : operatingSystem.Run () (sendCachedLoop fuel socket file) tr () (.ok status)) :
    SendRecords socket tr status := by
  induction fuel generalizing tr with
  | zero => cases (run_halt.mp h).2.2
  | succ fuel ih =>
      simp only [sendCachedLoop, fread_bind, run_call] at h
      obtain ⟨bytes, tr, -, rfl, h⟩ := h
      have hread {tr : Trace} {is : List Incident} (hrest : Records tr [] is) :
          Records (⟨.fread file jobRequestBufferSize, bytes⟩ :: tr) [] is := hrest.cons _ _ rfl
      split at h
      · obtain ⟨rfl, -, hout⟩ := run_ret.mp h
        exact .inl ⟨Except.ok.inj hout, hread .nil⟩
      · obtain ⟨result, tr₁, ⟨⟩, tr₂, hsend, hafter, rfl⟩ := h.bind_ok
        rcases run_trySendInChunks_records hsend with ⟨rfl, hsent⟩ | ⟨rfl, hsent⟩
        · rw [if_neg (by decide)] at hafter
          exact (ih hafter).map fun _ hrest ↦ hread (hsent.append hrest)
        · rw [if_pos rfl] at hafter
          obtain ⟨rfl, -, hout⟩ := run_ret.mp hafter
          exact .inr ⟨Except.ok.inj hout, hread (hsent.append .nil)⟩

theorem run_serveCached_records {record : RecordRef}
    (h : operatingSystem.Run () (serveCached fuel job record file hostname) tr ()
      (.ok status)) :
    ∃ is, Records tr [.release (.file file)] is ∧ (is = [] ∨ is = [.clientLost]) := by
  have hclose {tr : Trace} {result : Status} (h : operatingSystem.Run () (fclose file >>= fun _ ↦
      cacheRecordClose record .shouldRead >>= fun _ ↦ .ret result) tr () (.ok status)) :
      Records tr [.release (.file file)] [] := by
    simp only [fclose_bind, cacheRecordClose_bind, run_call] at h
    obtain ⟨⟨⟩, tr, -, rfl, ⟨⟩, tr, -, rfl, hend⟩ := h
    obtain ⟨rfl, -, -⟩ := run_ret.mp hend
    exact (Records.nil.cons _ _ rfl).cons _ _ rfl
  obtain ⟨result, tr₁, ⟨⟩, tr₂, hsend, hafter, rfl⟩ := h.bind_ok
  rcases run_sendCachedLoop_records hsend with ⟨rfl, hsent⟩ | ⟨rfl, hsent⟩
  · rw [if_neg (by decide)] at hafter
    obtain ⟨⟨⟩, tr₃, ⟨⟩, tr₄, hscan, hend, rfl⟩ := hafter.bind_ok
    have hcalls : (dispatchPrefetchJobs fuel (some file) hostname).Calls OffLedger :=
      (dispatchPrefetchJobs_calls _ _ _).mono fun _ ↦ offLedger_of_scansLinks
    have hquiet := records_offLedger (hscan.calls hcalls)
    exact ⟨_, hsent.append (hquiet.append (hclose hend)), .inl rfl⟩
  · rw [if_pos rfl] at hafter
    exact ⟨_, hsent.append (hclose hafter), .inr rfl⟩

theorem run_serveGrant_records
    (h : operatingSystem.Run ()
      (serveGrant fuel cacheFile job grant serverAddress path hostname) tr () (.ok status)) :
    ∃ l is, Records tr l is ∧ ServeRecords l is := by
  unfold serveGrant at h
  split at h
  next =>
    cases hrecord : grant.record with
    | none =>
        rw [hrecord] at h
        cases (run_halt.mp h).2.2
    | some record =>
        simp only [hrecord, nonNullRecord, Prog.ret_bind, cacheRecordClose_bind, run_call] at h
        obtain ⟨⟨⟩, tr, -, rfl, hend⟩ := h
        obtain ⟨rfl, -, -⟩ := run_ret.mp hend
        exact ⟨_, _, Records.nil.cons _ _ rfl, serveRecords_nil⟩
  next =>
    cases grant with
    | unavailable record =>
        obtain ⟨l, is, hrecords, hfetch⟩ := run_fetch_records h
        exact ⟨l, is, hrecords, hfetch.serveRecords⟩
    | shouldRead record =>
        simp only [fopen_bind, run_call] at h
        obtain ⟨opened, tr, -, rfl, h⟩ := h
        cases opened with
        | none =>
            obtain ⟨l, is, hrecords, hfetch⟩ := run_fetch_records h
            exact ⟨l, is, hrecords.cons _ _ rfl, hfetch.serveRecords⟩
        | some file =>
            obtain ⟨is, hrecords, his⟩ := run_serveCached_records h
            refine ⟨_, _, hrecords.cons _ _ rfl, ?_, ?_, ?_⟩
            · rcases his with rfl | rfl <;> simp [entries, incidentsOf, Orderly]
            · simp [entries]
            · simp [entries]
    | shouldWrite record =>
        simp only [fopen_bind, run_call] at h
        obtain ⟨opened, tr, -, rfl, h⟩ := h
        obtain ⟨l, is, hrecords, hfetch⟩ := run_fetch_records h
        cases opened with
        | none => exact ⟨l, is, hrecords.cons _ _ rfl, hfetch.serveRecords⟩
        | some file => exact ⟨_, is, hrecords.cons _ _ rfl, hfetch.serveRecords_file⟩

theorem run_handleValidRequest_records
    (h : operatingSystem.Run ()
      (handleValidRequest fuel cacheFile job serverAddress path hostname) tr () (.ok status)) :
    ∃ l is, Records tr l is ∧ ServeRecords l is := by
  unfold handleValidRequest at h
  split at h
  · exact run_serveGrant_records h
  · simp only [cacheRecordGetOrCreate_bind, run_call] at h
    obtain ⟨grant, tr, -, rfl, h⟩ := h
    obtain ⟨l, is, hrecords, hserved⟩ := run_serveGrant_records h
    exact ⟨l, is, hrecords.cons _ _ rfl, hserved⟩

/-! ## The address list -/

/-- Behind a lookup the ledger is balanced if the list is freed from its head on and the rest of
the request was orderly. -/
theorem ServeRecords.balanced_lookup {l rest : List (Entry Resource)} {is : List Incident}
    {freed : List Address} (h : ServeRecords l is) (hne : addresses ≠ [])
    (hsuffix : freed <:+ addresses)
    (hreleases : ∀ r, releases r rest = (nodes freed).count r + releases r l)
    (hrest : Balanced rest ↔ Balanced l) :
    Balanced ((nodes addresses).map .acquire ++ rest) ↔ freed = addresses ∧ Orderly is := by
  rw [balanced_map_acquire_append, hrest, h.balanced_iff, ← nodes_freed_iff hne hsuffix]
  apply and_congr_left'
  apply forall₂_congr
  intro r hr
  obtain ⟨l', rfl, -, -⟩ := mem_nodes.mp hr
  rw [hreleases, h.frees, Nat.add_zero]

theorem ServeRecords.balanced_freed {l : List (Entry Resource)} {is : List Incident}
    (h : ServeRecords l is) : Balanced (l ++ (nodes addresses).map .release) ↔ Balanced l := by
  apply balanced_append_map_release
  intro r hr
  obtain ⟨l', rfl, -, -⟩ := mem_nodes.mp hr
  exact h.keeps l'

theorem headServes_iff {skipped rest : List Address} {address : Address}
    (hskipped : ∀ a ∈ skipped, blockTableCheck table (inetNtop a) = true)
    (haddress : blockTableCheck table (inetNtop address) = false) :
    HeadServes table (skipped ++ address :: rest) ↔
      address :: rest = skipped ++ address :: rest := by
  cases skipped with
  | nil =>
      refine iff_of_true (.inr fun a ha ↦ ?_) rfl
      rwa [← Option.some.inj ha]
  | cons first skipped =>
      apply iff_of_false
      · rintro (hall | hhead)
        · have hblocked := hall address (by simp)
          rw [haddress] at hblocked
          cases hblocked
        · have hfree := hhead first rfl
          rw [hskipped first List.mem_cons_self] at hfree
          cases hfree
      · intro heq
        have hlength := congrArg List.length heq
        simp only [List.cons_append, List.length_cons, List.length_append] at hlength
        omega

/-! ## The job -/

/-- The ledger of the calls is balanced exactly if the address list needed no skipping and the
request was orderly. -/
def BalancedExactly (table : BlockTable) (tr : Trace) : Prop :=
  Balanced (ledger tr) ↔
    (∀ addresses ∈ lookups tr, HeadServes table addresses) ∧ Orderly (incidents tr)

theorem Records.balancedExactly {l : List (Entry Resource)} {is : List Incident}
    (h : Records tr l is) (hserved : ServeRecords l is) : BalancedExactly table tr := by
  rw [BalancedExactly, h.ledger, h.incidents, h.lookups, hserved.balanced_iff]
  simp

theorem BalancedExactly.behind_read (fd : ℤ) {op : Op} (h : BalancedExactly table tr)
    (hop : ReadsRequest fd op) (r : Resp op) : BalancedExactly table (⟨op, r⟩ :: tr) := by
  obtain ⟨hentries, hincidents, hlookups⟩ := offLedger_of_readsRequest hop r
  rw [BalancedExactly, ledger_cons, incidents_cons, lookups_cons, hentries, hincidents, hlookups]
  exact h

/-- A lookup in front of calls that free the list from one of its nodes on. -/
theorem ServeRecords.balancedExactly_lookup {l rest : List (Entry Resource)} {is : List Incident}
    {name service : List UInt8} {addresses : { l : List Address // l ≠ [] }}
    (h : ServeRecords l is) (freed : List Address) (hrecords : Records tr rest is)
    (hsuffix : freed <:+ addresses.val)
    (hreleases : ∀ r, releases r rest = (nodes freed).count r + releases r l)
    (hrest : Balanced rest ↔ Balanced l)
    (hhead : HeadServes table addresses.val ↔ freed = addresses.val) :
    BalancedExactly table (⟨.getaddrinfo name service, some addresses⟩ :: tr) := by
  have hentries : entries (.getaddrinfo name service) (some addresses) =
      (nodes addresses.val).map .acquire := rfl
  have hincidents : incidentsOf (.getaddrinfo name service) (some addresses) = [] := rfl
  have hlookups : lookupsOf (.getaddrinfo name service) (some addresses) = [addresses.val] := rfl
  rw [BalancedExactly, ledger_cons, incidents_cons, lookups_cons, hentries, hincidents, hlookups,
    hrecords.ledger, hrecords.incidents, hrecords.lookups, List.append_nil, List.nil_append,
    List.forall_mem_singleton, hhead]
  exact h.balanced_lookup addresses.property hsuffix hreleases hrest

theorem records_freeaddrinfo (addresses : List Address) :
    Records [⟨.freeaddrinfo addresses, ()⟩] ((nodes addresses).map .release) [] := by
  have hrecords := Records.nil.cons (.freeaddrinfo addresses) () rfl
  rwa [List.append_nil] at hrecords

theorem run_sendReply_records {reply : List UInt8}
    (h : operatingSystem.Run () (sendReply job addresses reply) tr () (.ok ())) :
    ∃ is, Records tr ([] ++ (nodes addresses).map .release) is ∧ ServeRecords [] is := by
  obtain ⟨status, tr₁, ⟨⟩, tr₂, hsend, hfree, rfl⟩ := h.bind_ok
  simp only [freeaddrinfo, Prog.perform, run_call] at hfree
  obtain ⟨⟨⟩, tr, -, rfl, hend⟩ := hfree
  obtain ⟨rfl, -, -⟩ := run_ret.mp hend
  have hfreed := records_freeaddrinfo addresses
  rcases run_trySendInChunks_records hsend with ⟨-, hsent⟩ | ⟨-, hsent⟩
  · exact ⟨_, hsent.append hfreed, serveRecords_nil⟩
  · exact ⟨_, hsent.append hfreed, serveRecords_clientLost⟩

/-- What a request does once its host is resolved, up to the address list it frees in the end. -/
theorem run_answerRequest_records {parsed : ParseOut} {version : List UInt8}
    (h : operatingSystem.Run () (answerRequest fuel locals table job parsed version) tr ()
      (.ok ())) :
    ∃ resolving status freed answer l is, tr = resolving ++ answer ∧
      Resolved table (cstr parsed.hostname 0) resolving status freed ∧
      Records answer (l ++ (nodes freed).map .release) is ∧ ServeRecords l is := by
  obtain ⟨⟨status, freed⟩, resolving, ⟨⟩, answer, hresolve, hanswer, rfl⟩ := h.bind_ok
  obtain ⟨status', freed', hresolved, hout⟩ := run_resolveHost hresolve
  obtain ⟨rfl, rfl⟩ := Prod.mk.inj (Except.ok.inj hout)
  have hreply {reply : List UInt8}
      (h : operatingSystem.Run () (sendReply job freed reply) answer () (.ok ())) :
      ∃ l is, Records answer (l ++ (nodes freed).map .release) is ∧ ServeRecords l is := by
    obtain ⟨is, hrecords⟩ := run_sendReply_records h
    exact ⟨[], is, hrecords⟩
  have hserved : ∃ l is,
      Records answer (l ++ (nodes freed).map .release) is ∧ ServeRecords l is := by
    split at hanswer
    · exact hreply hanswer
    · cases status with
      | blocked => exact hreply hanswer
      | notFound => exact hreply hanswer
      | error => exact hreply hanswer
      | ok =>
          cases freed with
          | nil => cases (run_halt.mp hanswer).2.2
          | cons address rest =>
              obtain ⟨result, tr₁, ⟨⟩, tr₂, hhandle, hfree, rfl⟩ := hanswer.bind_ok
              obtain ⟨l, is, hrecords, hserved⟩ := run_handleValidRequest_records hhandle
              simp only [freeaddrinfo, Prog.perform, run_call] at hfree
              obtain ⟨⟨⟩, tr, -, rfl, hend⟩ := hfree
              obtain ⟨rfl, -, -⟩ := run_ret.mp hend
              have hboth := hrecords.append (records_freeaddrinfo (address :: rest))
              rw [List.append_nil] at hboth
              exact ⟨l, is, hboth, hserved⟩
  obtain ⟨l, is, hrecords, hserved⟩ := hserved
  exact ⟨resolving, status, freed, answer, l, is, rfl, hresolved, hrecords, hserved⟩

theorem run_answerRequest_balanced {parsed : ParseOut} {version : List UInt8}
    (h : operatingSystem.Run () (answerRequest fuel locals table job parsed version) tr ()
      (.ok ())) : BalancedExactly table tr := by
  obtain ⟨resolving, status, freed, answer, l, is, rfl, hresolved, hrecords, hserved⟩ :=
    run_answerRequest_records h
  cases hresolved with
  | nameBlocked hname =>
      rw [nodes, List.map_nil, List.append_nil] at hrecords
      exact hrecords.balancedExactly hserved
  | notFound service hname =>
      rw [nodes, List.map_nil, List.append_nil] at hrecords
      exact (hrecords.cons _ _ rfl).balancedExactly hserved
  | allBlocked service addresses hname hall =>
      rw [nodes, List.map_nil, List.append_nil] at hrecords
      have hboth := (records_freeaddrinfo addresses.val).append hrecords
      apply hserved.balancedExactly_lookup addresses.val hboth List.suffix_rfl
      · intro r
        rw [releases_append, releases_map_release]
      · exact balanced_append_of_releases (by simp)
      · exact iff_of_true (.inl hall) rfl
  | found service addresses skipped address rest hname hsplit hskipped haddress =>
      apply hserved.balancedExactly_lookup (address :: rest) hrecords
      · exact ⟨skipped, hsplit.symm⟩
      · intro r
        rw [releases_append, releases_map_release, Nat.add_comm]
      · exact hserved.balanced_freed
      · rw [hsplit]
        exact headServes_iff hskipped haddress

/-! ## The whole call -/

theorem run_rejected_balanced {reply : List UInt8}
    (h : operatingSystem.Run () (do
      let _ ← trySendInChunks (.client job.clientSocketFd) reply reply.length
      .ret ()) tr () (.ok ())) : BalancedExactly table tr := by
  obtain ⟨status, tr₁, ⟨⟩, tr₂, hsend, hend, rfl⟩ := h.bind_ok
  obtain ⟨rfl, -, -⟩ := run_ret.mp hend
  rw [List.append_nil]
  rcases run_trySendInChunks_records hsend with ⟨-, hsent⟩ | ⟨-, hsent⟩
  · exact hsent.balancedExactly serveRecords_nil
  · exact hsent.balancedExactly serveRecords_clientLost

theorem run_parseJob_balanced {left : Job} {result : JobStatus}
    (h : operatingSystem.Run () (parseJob fuel locals table job) tr () (.ok (result, left))) :
    BalancedExactly table tr := by
  generalize hout : Except.ok (result, left) = outcome at h
  cases run_parseJob_cases h with
  | faults => cases hout
  | waits => exact Records.nil.balancedExactly serveRecords_nil
  | responds parsed responded hparse hrespond =>
      cases responded with
      | error fault => cases hout
      | ok =>
          cases hversion : (if parsed.1 = .fail then .malformed else parsed.2.2.version) with
          | malformed =>
              rw [hversion] at hrespond
              exact run_rejected_balanced hrespond
          | notSupported =>
              rw [hversion] at hrespond
              exact run_rejected_balanced hrespond
          | dotZero =>
              rw [hversion] at hrespond
              exact run_answerRequest_balanced hrespond
          | dotOne =>
              rw [hversion] at hrespond
              exact run_answerRequest_balanced hrespond

theorem run_readAndParseJob_balanced {left : Job} {result : JobStatus}
    (h : operatingSystem.Run () (readAndParseJob fuel locals table job) tr ()
      (.ok (result, left))) : BalancedExactly table tr := by
  have hnothing : BalancedExactly table [] := Records.nil.balancedExactly serveRecords_nil
  generalize hout : Except.ok (result, left) = outcome at h
  cases run_readAndParseJob_cases h with
  | prefetch hfd hrun =>
      subst hout
      exact run_parseJob_balanced hrun
  | noData => exact hnothing.behind_read job.clientSocketFd (by exact rfl) _
  | closed => exact hnothing.behind_read job.clientSocketFd (by exact rfl) _
  | data hfd bytes now hne hfits hbytes htime hrun =>
      subst hout
      have hclock : ReadsRequest job.clientSocketFd .time := trivial
      have hparsed := (run_parseJob_balanced hrun).behind_read job.clientSocketFd hclock now
      exact hparsed.behind_read job.clientSocketFd (by exact rfl) _

/-- A call of `process_job` that returns has given back, each once, the socket, the file and the
nodes of the address list that it has taken, if and only if no address was skipped, the server was
connected and took the request, and the client took what was received first. -/
theorem balanced_iff_orderly {left : Job} {result : JobStatus}
    (h : operatingSystem.Run () (processJob fuel locals table job) tr () (.ok (result, left))) :
    Balanced (ledger tr) ↔
      (∀ addresses ∈ lookups tr, HeadServes table addresses) ∧ Orderly (incidents tr) := by
  rcases run_processJob_cases h with ⟨-, hread⟩ | ⟨-, now, tr, -, rfl, hcall⟩
  · exact run_readAndParseJob_balanced hread
  · refine BalancedExactly.behind_read job.clientSocketFd ?_ (by exact trivial) _
    rcases hcall with ⟨-, rfl, -⟩ | ⟨-, hread⟩
    · exact Records.nil.balancedExactly serveRecords_nil
    · exact run_readAndParseJob_balanced hread

/-! ## Calls that keep something -/

/-- A request that is not looked up in the cache. -/
def queryRequest : List UInt8 := text "GET http://a/?q HTTP/1.1\r\n\r\n"

/-- The values of locals that were not set before. -/
def clearLocals : Locals := ⟨false, .malformed, false, none⟩

theorem exists_parse_queryRequest (now : ℕ) :
    ∃ left out, parseRequestString (receiveRequest (jobConstruct 5) queryRequest now).request
        clearLocals.parseOut = .ok (.success, left, out) ∧
      out.isGet = true ∧ out.version = .dotOne ∧ cstr out.hostname 0 = text "a" ∧
        63 ∈ cstr out.path 0 := by
  have hholds : Holds (receiveRequest (jobConstruct 5) queryRequest now) queryRequest :=
    (holds_jobConstruct 5).receive (by decide) now
  have htext : (parseText queryRequest clearLocals.parseOut).map (fun parsed ↦
      (parsed.1, parsed.2.isGet, parsed.2.version, cstr parsed.2.hostname 0,
        cstr parsed.2.path 0)) = .ok (.success, true, .dotOne, text "a", text "/?q") := by
    decide +kernel
  obtain ⟨left, out, hparse, hout⟩ := hholds.exists_parse
    (f := fun out ↦ (out.isGet, out.version, cstr out.hostname 0, cstr out.path 0)) (by decide)
      htext
  simp only [Prod.mk.injEq] at hout
  obtain ⟨hget, hversion, hhost, hpath⟩ := hout
  refine ⟨left, out, hparse, hget, hversion, hhost, ?_⟩
  rw [hpath]
  decide

theorem run_resolveHost_skip {name : List UInt8} {skipped rest : List Address} {address : Address}
    (hsplit : splitHostname hostname = (name, none)) (hname : blockTableCheck table name = false)
    (hskipped : ∀ a ∈ skipped, blockTableCheck table (inetNtop a) = true)
    (haddress : blockTableCheck table (inetNtop address) = false)
    (hne : skipped ++ address :: rest ≠ []) :
    operatingSystem.Run () (resolveHost table hostname)
      [⟨.getaddrinfo name (text "http"), some ⟨skipped ++ address :: rest, hne⟩⟩] ()
      (.ok (.ok, address :: rest)) := by
  have hcheck : operatingSystem.Run () (checkAddresses table (skipped ++ address :: rest)
      (skipped ++ address :: rest)) [] () (.ok (.ok, address :: rest)) := by
    rw [checkAddresses_skip hskipped haddress]
    exact .ret _
  rw [resolveHost, hsplit, if_neg (by rw [hname]; decide)]
  exact .call trivial hcheck

theorem run_handleValidRequest_unconnected (hclient : job.clientSocketFd ≠ -1)
    (hquery : 63 ∈ path) :
    operatingSystem.Run () (handleValidRequest fuel none job serverAddress path hostname)
      [⟨.socket, fd⟩, ⟨.connect fd serverAddress, false⟩] () (.ok .fail) := by
  rw [handleValidRequest, if_pos hquery, serveGrant, if_neg fun h ↦ hclient h.1]
  exact .call trivial (.call (by rintro ⟨⟩) (.ret _))

/-- A client's request for a host that has this address list and cannot be connected to. -/
theorem exists_run_unconnected (table : BlockTable) (skipped : List Address) (address : Address)
    (rest : List Address) (fd : ℤ) (hname : blockTableCheck table (text "a") = false)
    (hskipped : ∀ a ∈ skipped, blockTableCheck table (inetNtop a) = true)
    (haddress : blockTableCheck table (inetNtop address) = false) :
    ∃ tr left, operatingSystem.Run () (processJob 0 clearLocals table (jobConstruct 5)) tr ()
        (.ok (.terminate, left)) ∧
      ledger tr = (nodes (skipped ++ address :: rest)).map .acquire ++
        (entries .socket fd ++ (nodes (address :: rest)).map .release) := by
  obtain ⟨left, out, hparse, hget, hversion, hhost, hquery⟩ := exists_parse_queryRequest 100
  let job : Job := { receiveRequest (jobConstruct 5) queryRequest 100 with request := left }
  have hclient : job.clientSocketFd ≠ -1 := show (5 : ℤ) ≠ -1 by decide
  have hne : skipped ++ address :: rest ≠ [] := by simp
  have hsplit : splitHostname (cstr out.hostname 0) = (text "a", none) := by
    rw [hhost]
    decide
  let tr : Trace :=
    [⟨.getaddrinfo (text "a") (text "http"), some ⟨skipped ++ address :: rest, hne⟩⟩,
      ⟨.socket, fd⟩, ⟨.connect fd address, false⟩, ⟨.freeaddrinfo (address :: rest), ()⟩]
  have hanswer : operatingSystem.Run ()
      (answerRequest 0 clearLocals table job out (text "HTTP/1.1 ")) tr () (.ok ()) := by
    apply (run_resolveHost_skip hsplit hname hskipped haddress hne).bind
    rw [if_neg (by rw [hget]; decide)]
    exact (run_handleValidRequest_unconnected hclient hquery).bind (.call trivial (.ret _))
  have hjob : operatingSystem.Run () (parseJob 0 clearLocals table
      (receiveRequest (jobConstruct 5) queryRequest 100)) tr () (.ok (.terminate, job)) := by
    rw [parseJob, hparse, Prog.lift_ok, Prog.ret_bind, if_neg (by rintro ⟨⟨⟩, -⟩),
      if_neg (show (Status.success = Status.fail) → False by decide), hversion]
    exact hanswer.bind (.ret _)
  have hfits : queryRequest.length ≤ jobRequestBufferSize := by decide
  refine ⟨_, job, run_processJob_new hclient (by decide) hfits trivial trivial hjob, ?_⟩
  simp [ledger, entries, tr]

/-- A server that refuses the connection. -/
theorem balanced_iff_orderly_refused :
    ∃ tr left, operatingSystem.Run () (processJob 0 clearLocals [] (jobConstruct 5)) tr ()
        (.ok (.terminate, left)) ∧
      (Balanced (ledger tr) ↔
        (∀ addresses ∈ lookups tr, HeadServes [] addresses) ∧ Orderly (incidents tr)) := by
  obtain ⟨tr, left, hrun, -⟩ :=
    exists_run_unconnected [] [] ⟨10, 0, 0, 1, 80⟩ [] 7 rfl (by simp) rfl
  exact ⟨tr, left, hrun, balanced_iff_orderly hrun⟩

/-- A request that is refused the connection keeps its socket, and one whose host has a blocked
address first keeps that node of the list. -/
theorem resources_not_released :
    (∃ tr left, operatingSystem.Run () (processJob 0 clearLocals [] (jobConstruct 5)) tr ()
        (.ok (.terminate, left)) ∧ ¬Balanced (ledger tr)) ∧
      ∃ tr left, operatingSystem.Run ()
        (processJob 0 clearLocals [text "10.0.0.1"] (jobConstruct 5)) tr ()
          (.ok (.terminate, left)) ∧ ¬Balanced (ledger tr) := by
  constructor
  · obtain ⟨tr, left, hrun, hledger⟩ :=
      exists_run_unconnected [] [] ⟨10, 0, 0, 1, 80⟩ [] 7 rfl (by simp) rfl
    refine ⟨tr, left, hrun, ?_⟩
    rw [hledger]
    simp [nodes, entries]
  · obtain ⟨tr, left, hrun, hledger⟩ := exists_run_unconnected [text "10.0.0.1"]
      [⟨10, 0, 0, 1, 80⟩] ⟨10, 0, 0, 2, 80⟩ [] (-1) (by decide) (by decide) (by decide)
    refine ⟨tr, left, hrun, ?_⟩
    rw [hledger]
    simp [nodes, entries]

end HttpProxy
