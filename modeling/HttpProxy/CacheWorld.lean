import HttpProxy.CacheRecordRuns
import HttpProxy.CacheView

/-!
# What the cache hands out

Requests in any number, interleaved at their calls, over one cache table and one file
system.  Each request keeps to its view of the cache, and the counters of the records keep
the views apart: while a record is written nobody else touches its file, and while it is
read the file stays as its last writer left it.
-/

namespace HttpProxy

open Interaction Protocol Transition ReadersWriter

/-- What the requests share.  `responses` remembers for each record the response of the
request that was last given its write grant. -/
structure World where
  content : CacheTable
  files : List UInt8 → List UInt8
  clock : ℤ
  responses : ℕ → List UInt8

def World.setFile (w : World) (path content : List UInt8) : World :=
  { w with files := Function.update w.files path content }

/-- The calls that depend on the world, or on what the server sends. -/
def ReadsWorld : Op → Prop
  | .cacheRecordGetOrCreate _ => True
  | .cacheRecordClose _ _ => True
  | .fopen _ _ => True
  | .fread _ _ => True
  | .fwrite _ _ => True
  | .recv (.server _) _ _ => True
  | _ => False

def grantOf (record : RecordRef) : ActionStatus → Grant
  | .unavailable => .unavailable (some record)
  | .shouldRead => .shouldRead record
  | .shouldWrite => .shouldWrite record

def View.Owns (v : View) (handle : FileHandle) (file : OpenedFile) : Prop :=
  v.file = some file ∧ file.handle = handle

/-- One call of a request with view `v`.  A lookup and a close are atomic under the locks
of the table.  Writing through a `FILE*` that the request has not opened may do
anything. -/
inductive WorldStep (ttl : ℤ) (md5sum : List UInt8 → List UInt8) (v : View) :
    World → (op : Op) → Resp op → World → Prop
  | refuse {w : World} {url : List UInt8} (hlen : url.length > urlMaxLength) :
      WorldStep ttl md5sum v w (.cacheRecordGetOrCreate url) (.unavailable none) w
  | create {w : World} {url : List UInt8} {now : ℤ} (hlen : ¬url.length > urlMaxLength)
      (hfind : hashFind w.content (md5sum url) = none) (hnow : w.clock ≤ now) :
      WorldStep ttl md5sum v w (.cacheRecordGetOrCreate url)
        (.shouldWrite ⟨w.content.length, md5sum url⟩)
        { w with
          content := w.content ++ [cacheRecordCreate ttl (md5sum url) now]
          clock := now
          responses := Function.update w.responses w.content.length v.response }
  | decide {w : World} {url : List UInt8} {r : ℕ} {record : CacheRecord} {now later : ℤ}
      (hlen : ¬url.length > urlMaxLength) (hfind : hashFind w.content (md5sum url) = some r)
      (hrecord : w.content[r]? = some record) (hnow : w.clock ≤ now) (hlater : now ≤ later) :
      WorldStep ttl md5sum v w (.cacheRecordGetOrCreate url)
        (grantOf ⟨r, record.name⟩ (cacheRecordDecide ttl record now later).1)
        { w with
          content := w.content.set r (cacheRecordDecide ttl record now later).2
          clock := later
          responses := if (cacheRecordDecide ttl record now later).1 = .shouldWrite then
            Function.update w.responses r v.response else w.responses }
  | close {w : World} {record : RecordRef} {status : ActionStatus} {current : CacheRecord}
      (hcurrent : w.content[record.address]? = some current) :
      WorldStep ttl md5sum v w (.cacheRecordClose record status) ()
        { w with content := w.content.set record.address (cacheRecordUpdate current status) }
  | openRead {w : World} (path : List UInt8) (opened : Option FileHandle) :
      WorldStep ttl md5sum v w (.fopen path .read) opened w
  | openWrite {w : World} (path : List UInt8) (handle : FileHandle) :
      WorldStep ttl md5sum v w (.fopen path .write) (some handle)
        (w.setFile path [])
  | openFails {w : World} (path : List UInt8) :
      WorldStep ttl md5sum v w (.fopen path .write) none w
  | read {w : World} {handle : FileHandle} {size : ℕ} {file : OpenedFile}
      (bytes : { bytes : List UInt8 // bytes.length ≤ size }) (hfile : v.Owns handle file)
      (hbytes : bytes.val = (OpenFile.mk (w.files file.path) file.position).read size) :
      WorldStep ttl md5sum v w (.fread handle size) bytes w
  | readOther {w : World} {handle : FileHandle} {size : ℕ} (hfile : ∀ file, ¬v.Owns handle file)
      (bytes : { bytes : List UInt8 // bytes.length ≤ size }) :
      WorldStep ttl md5sum v w (.fread handle size) bytes w
  | write {w : World} {handle : FileHandle} {bytes : List UInt8} {file : OpenedFile}
      (hfile : v.Owns handle file) :
      WorldStep ttl md5sum v w (.fwrite handle bytes) ()
        (w.setFile file.path ((OpenFile.mk (w.files file.path) file.position).write bytes).content)
  | writeOther {w : World} {handle : FileHandle} {bytes : List UInt8}
      (hfile : ∀ file, ¬v.Owns handle file) (w' : World) :
      WorldStep ttl md5sum v w (.fwrite handle bytes) () w'
  | receive {w : World} {fd : ℤ} {size : ℕ} {dontWait : Bool} (received : RecvResult size)
      (hpiece : ∀ piece rest, v.pieces = piece :: rest →
        received.bytes = piece.take size ∧ received.length = (piece.take size).length) :
      WorldStep ttl md5sum v w (.recv (.server fd) size dontWait) received w
  | other {w : World} {op : Op} (hop : ¬ReadsWorld op) (answer : Resp op) :
      WorldStep ttl md5sum v w op answer w

/-- A request that is being worked on: the code it has still to run, its view, and the
response that was in the file of its record when it was allowed to read it. -/
structure Request where
  prog : Worker Status
  view : View
  source : List UInt8
  job : Job
  cacheFile : Option FileHandle

structure ProxyState where
  world : World
  requests : List Request

def Request.answered (request : Request) (w : World) (op : Op) (k : Resp op → Worker Status)
    (answer : Resp op) : Request where
  prog := k answer
  view := request.view.next op answer
  source := match op, answer with
    | .cacheRecordGetOrCreate _, .shouldRead record => w.responses record.address
    | _, _ => request.source
  job := request.job
  cacheFile := request.cacheFile

inductive ProxyLabel where
  | tick (now : ℤ)
  | arrive (job : Job) (path : List UInt8) (cacheFile : Option FileHandle)
  | call (i : ℕ) (event : Event Resp)

inductive ProxyStep (ttl : ℤ) (md5sum : List UInt8 → List UInt8) :
    ProxyState → ProxyLabel → ProxyState → Prop
  | tick {s : ProxyState} {now : ℤ} (hnow : s.world.clock ≤ now) :
      ProxyStep ttl md5sum s (.tick now) { s with world := { s.world with clock := now } }
  | arrive {s : ProxyState} (fuel : ℕ) (cacheFile : Option FileHandle) (job : Job)
      (serverAddress : Address) (path hostname : List UInt8) (pieces : List (List UInt8))
      (hresponse : CompleteResponse pieces) :
      ProxyStep ttl md5sum s (.arrive job path cacheFile)
        { s with requests := s.requests ++
            [⟨handleValidRequest fuel cacheFile job serverAddress path hostname,
              View.start pieces, [], job, cacheFile⟩] }
  | call {s : ProxyState} {i : ℕ} {request : Request} {op : Op} {k : Resp op → Worker Status}
      {answer : Resp op} {w' : World} (hi : s.requests[i]? = some request)
      (hprog : request.prog = .call op k)
      (h : WorldStep ttl md5sum request.view s.world op answer w') :
      ProxyStep ttl md5sum s (.call i ⟨op, answer⟩)
        ⟨w', s.requests.set i (request.answered s.world op k answer)⟩

/-- The table starts empty; the cache directory may hold anything. -/
def proxySystem (ttl : ℤ) (md5sum : List UInt8 → List UInt8) : System ProxyState ProxyLabel where
  Init s := s.world.content = [] ∧ s.requests = []
  Step := ProxyStep ttl md5sum

/-- The bytes that a request sent from the cache, and the file a reader is about to send,
are the whole response that the last writer of the record was sent. -/
def CacheTransparent (s : ProxyState) : Prop :=
  ∀ request ∈ s.requests,
    (request.prog = .ret .success → request.view.cached = true →
      request.view.sent = request.source) ∧
    ∀ record, request.view.Holds (.shouldRead record) →
      s.world.files (cacheFilePath record) = request.source

/-- A request with a grant that is no grant uses its variable `cache_file` as it is. -/
def LeavesFileUnset (job : Job) (cacheFile : Option FileHandle) : Event Resp → Prop
  | ⟨.cacheRecordGetOrCreate _, answer⟩ =>
      (answer : Grant).action = .unavailable → job.clientSocketFd ≠ -1 → cacheFile = none
  | _ => True

/-- The condition on a step: no client goes away while its request is in the middle of
writing a response to the cache, and a variable that is used without being set holds
NULL. -/
def Undisturbed (s : ProxyState) : ProxyLabel → Prop
  | .tick _ => True
  | .arrive job path cacheFile => 63 ∈ path → job.clientSocketFd ≠ -1 → cacheFile = none
  | .call i event => ∀ request, s.requests[i]? = some request →
      (ClientFails event.1 event.2 → request.view.MayFail) ∧
        LeavesFileUnset request.job request.cacheFile event

end HttpProxy
