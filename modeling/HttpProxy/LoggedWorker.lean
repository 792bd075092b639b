import HttpProxy.Lib.MessageLog
import HttpProxy.Worker

/-!
# The worker with its log

The functions of `worker.c` that write log lines or format text, as they are compiled with
`DEBUG` set to 1.  Every text is written into a buffer of the size that the source gives it, and
a text that does not fit ends the run.  What neither logs nor formats is taken from the worker
without a log.
-/

namespace HttpProxy

open CString Interaction

/-- Code of a worker that writes to the log. -/
abbrev LoggedWorker (α : Type) := Prog (LogResp (List UInt8) Resp) Fault α

/-- `output_buffer` of `process_job`. -/
def outputBufferSize : ℕ := printoutBufferSize + jobRequestBufferSize

/-- `response_buffer` of `process_job`. -/
def responseBufferSize : ℕ := jobRequestBufferSize + 1

/-- `dispatch_request` of `dispatch_prefetch_jobs`. -/
def dispatchRequestSize : ℕ := jobRequestBufferSize + maxUrlSize

/-- `cache_file_path` of `handle_valid_request`, and `server_name` of `resolve_host`. -/
def nameBufferSize : ℕ := maxNameLength + 1

/-- `sprintf` or `strcpy` into a buffer, with room for the NUL at the end. -/
def sprintf (size : ℕ) (s : List UInt8) : Except Fault (List UInt8) :=
  if s.length < size then .ok s else .error .outOfBounds

/-- `%d`. -/
def decimal (n : ℤ) : List UInt8 :=
  (if n < 0 then [45] else []) ++ (Nat.toDigits 10 n.natAbs).map fun c ↦ c.toNat.toUInt8

/-- The bytes at the start of every line that the thread logs. -/
def threadMark (threadId : ℤ) : List UInt8 := 60 :: (decimal threadId ++ text "> ")

def socketMark (threadId : ℤ) (job : Job) : List UInt8 :=
  threadMark threadId ++ (text "socket:" ++ (decimal job.clientSocketFd ++ [space]))

/-- `sprintf` a line into a buffer, and `safe_write` it. -/
def logLine (size : ℕ) (line : List UInt8) : LoggedWorker Unit := do
  let line ← Prog.lift (sprintf size line)
  Prog.say line

/-- A line about the socket of the job, through `output_buffer`. -/
def logSocket (threadId : ℤ) (job : Job) (line : List UInt8) : LoggedWorker Unit :=
  logLine outputBufferSize (socketMark threadId job ++ (line ++ [lf]))

section

variable (threadId : ℤ) (reread : ℕ → Job → List UInt8)

/-! ## Prefetching -/

/-- `reread n job` is what the buffer of a pushed job holds when the line about it is put together,
`n` rounds before the end: it is read after the push, when a prefetch worker can have the job. -/
def loggedDispatchLoop : ℕ → FileHandle → List UInt8 → LoggedWorker Unit
  | 0, _, _ => .halt .outOfFuel
  | fuel + 1, file, hostname => do
      let result ← (findHref fuel file).silent _
      match result with
      | .finished => .ret ()
      | .fail => loggedDispatchLoop fuel file hostname
      | .success foundLink => do
          logLine dispatchRequestSize
            (threadMark threadId ++ (text "found link: " ++ foundLink ++ [lf]))
          if matchesCommand foundLink "http://" ∨ matchesCommand foundLink "/" then do
            let _ ← Prog.lift (sprintf dispatchRequestSize (dispatchRequest hostname foundLink))
            let job := prefetchJob hostname foundLink
            let _ ← (jobStackPushJob job).silent _
            logLine dispatchRequestSize (threadMark threadId ++
              (text "prefetch dispatched: " ++ cstr (reread fuel job) 0 ++ [lf]))
            loggedDispatchLoop fuel file hostname
          else loggedDispatchLoop fuel file hostname

def loggedDispatchPrefetchJobs (fuel : ℕ) (cachedResponse : Option FileHandle)
    (hostname : List UInt8) : LoggedWorker Unit := do
  let file ← (nonNullFile cachedResponse).silent _
  (fseek file .start 0).silent _
  loggedDispatchLoop threadId reread fuel file hostname

/-! ## Serving a request -/

def loggedServeCached (fuel : ℕ) (job : Job) (record : RecordRef) (cacheFile : FileHandle)
    (hostname : List UInt8) : LoggedWorker Status := do
  let result ← (sendCachedLoop fuel (.client job.clientSocketFd) cacheFile).silent _
  if result = .fail then do
    logSocket threadId job (text "sending to client failed")
    (fclose cacheFile).silent _
    (cacheRecordClose record .shouldRead).silent _
    .ret .fail
  else do
    loggedDispatchPrefetchJobs threadId reread fuel (some cacheFile) hostname
    (fclose cacheFile).silent _
    (cacheRecordClose record .shouldRead).silent _
    .ret .success

def loggedRelayLoop (job : Job) : ℕ → ℤ → Option FileHandle → ℤ → ℤ → LoggedWorker Unit
  | 0, _, _, _, _ => .halt .outOfFuel
  | fuel + 1, serverSocketFd, cacheFile, contentLength, contentRead =>
      if contentLength > contentRead then do
        let received ← (recv (.server serverSocketFd) jobRequestBufferSize false).silent _
        let contentRead := contentRead + received.length
        if ¬InIntRange contentRead then .halt .signedOverflow
        else
          let result ← (cacheAndSend (.client job.clientSocketFd) cacheFile (received.bytes)
            (received.length)).silent _
          if result = .fail then logSocket threadId job (text "sending to client failed")
          else loggedRelayLoop job fuel serverSocketFd cacheFile contentLength contentRead
      else .ret ()

def loggedRelayRest (fuel : ℕ) (job : Job) (serverSocketFd : ℤ) (cacheFile : Option FileHandle)
    (lengths : ℤ × ℤ) (bytesRead : ℤ) : LoggedWorker Unit :=
  if ¬InIntRange (lengths.1 + lengths.2) then .halt .signedOverflow
  else if bytesRead < lengths.1 + lengths.2 then
    loggedRelayLoop threadId job fuel serverSocketFd cacheFile lengths.2 (bytesRead - lengths.1)
  else .ret ()

def loggedDispatchForClient (fuel : ℕ) (job : Job) (cacheFile : Option FileHandle)
    (hostname : List UInt8) : LoggedWorker Unit :=
  if job.clientSocketFd ≠ -1 then loggedDispatchPrefetchJobs threadId reread fuel cacheFile hostname
  else .ret ()

def loggedFinishWrite (fuel : ℕ) (job : Job) (record : RecordRef) (cacheFile : Option FileHandle)
    (hostname : List UInt8) : LoggedWorker Unit := do
  loggedDispatchForClient threadId reread fuel job cacheFile hostname
  let file ← (nonNullFile cacheFile).silent _
  (fclose file).silent _
  (cacheRecordClose record .shouldWrite).silent _

def loggedFinishRelay (fuel : ℕ) (job : Job) (grant : Grant) (cacheFile : Option FileHandle)
    (hostname : List UInt8) : LoggedWorker Status :=
  match grant with
  | .shouldWrite record => do
      loggedFinishWrite threadId reread fuel job record cacheFile hostname
      .ret .success
  | _ => .ret .success

/-- Only for a client the end of the relay is logged. -/
def logRelayed (job : Job) : LoggedWorker Unit :=
  if job.clientSocketFd ≠ -1 then logSocket threadId job (text "response relayed to client")
  else .ret ()

def loggedRelayResponse (fuel : ℕ) (job : Job) (grant : Grant) (cacheFile : Option FileHandle)
    (serverSocketFd : ℤ) (hostname : List UInt8) : LoggedWorker Status := do
  let received ← (recv (.server serverSocketFd) jobRequestBufferSize false).silent _
  let lengths ← Prog.lift (parseResponseHeader (responseBuffer (received.bytes)))
  let result ← (cacheAndSend (.client job.clientSocketFd) cacheFile (received.bytes)
    (received.length)).silent _
  if result = .fail then do
    logSocket threadId job (text "sending to client failed")
    .ret .fail
  else do
    loggedRelayRest threadId fuel job serverSocketFd cacheFile lengths received.length
    logRelayed threadId job
    (close serverSocketFd).silent _
    loggedFinishRelay threadId reread fuel job grant cacheFile hostname

def loggedFetch (fuel : ℕ) (job : Job) (grant : Grant) (cacheFile : Option FileHandle)
    (serverAddress : Address) (path hostname : List UInt8) : LoggedWorker Status := do
  let serverSocketFd ← newSocket.silent _
  let connected ← (connect serverSocketFd serverAddress).silent _
  if connected = false then do
    (closeIfOpen cacheFile).silent _
    .ret .fail
  else
    let request ← Prog.lift (sprintf responseBufferSize (upstreamRequest path hostname))
    let result ← (trySendInChunks (.server serverSocketFd) request request.length).silent _
    if result = .fail then do
      logSocket threadId job (text "sending to server failed")
      (closeIfOpen cacheFile).silent _
      .ret .fail
    else loggedRelayResponse threadId reread fuel job grant cacheFile serverSocketFd hostname

def hitOrMiss (grant : Grant) : List UInt8 :=
  if grant.action = .shouldRead then text "hit" else text "miss"

def loggedServeGrant (fuel : ℕ) (cacheFile : Option FileHandle) (job : Job) (grant : Grant)
    (serverAddress : Address) (path hostname : List UInt8) : LoggedWorker Status := do
  logSocket threadId job (text "cache: " ++ hitOrMiss grant)
  if job.clientSocketFd = -1 ∧ grant.action ≠ .shouldWrite then do
    let record ← (nonNullRecord grant.record).silent _
    (cacheRecordClose record grant.action).silent _
    .ret .success
  else
    match grant with
    | .unavailable _ =>
        loggedFetch threadId reread fuel job grant cacheFile serverAddress path hostname
    | .shouldRead record => do
        let cacheFilePath ← Prog.lift (sprintf nameBufferSize (cacheFilePath record))
        let cacheFile ← (fopen cacheFilePath .read).silent _
        match cacheFile with
        | some cacheFile => loggedServeCached threadId reread fuel job record cacheFile hostname
        | none => loggedFetch threadId reread fuel job grant none serverAddress path hostname
    | .shouldWrite record => do
        let cacheFilePath ← Prog.lift (sprintf nameBufferSize (cacheFilePath record))
        let cacheFile ← (fopen cacheFilePath .write).silent _
        loggedFetch threadId reread fuel job grant cacheFile serverAddress path hostname

/-- The url is put together in `response_buffer`. -/
def loggedHandleValidRequest (fuel : ℕ) (cacheFile : Option FileHandle) (job : Job)
    (serverAddress : Address) (path hostname : List UInt8) : LoggedWorker Status :=
  if 63 ∈ path then
    loggedServeGrant threadId reread fuel cacheFile job (.unavailable none) serverAddress path
      hostname
  else do
    let url ← Prog.lift (sprintf responseBufferSize (hostname ++ path))
    let grant ← (cacheRecordGetOrCreate url).silent _
    loggedServeGrant threadId reread fuel cacheFile job grant serverAddress path hostname

/-! ## Processing a job -/

/-- The name is copied before it is cut at the port. -/
def loggedResolveHost (table : BlockTable) (hostname : List UInt8) :
    LoggedWorker (HostStatus × List Address) := do
  let serverName ← Prog.lift (sprintf nameBufferSize hostname)
  (resolveHost table serverName).silent _

/-- `copy_into_buffer`, on what the response buffer holds. -/
def copyIntoBuffer (target content : List UInt8) : LoggedWorker (List UInt8) :=
  Prog.lift (sprintf responseBufferSize (target ++ content))

def appendCloseHeader (keepAlive : Bool) (reply : List UInt8) : LoggedWorker (List UInt8) :=
  if keepAlive then copyIntoBuffer reply (text "Proxy-Connection: close\r\n\r\n") else .ret reply

def logUnsent (job : Job) (result : Status) : LoggedWorker Unit :=
  if result = .fail then logSocket threadId job (text "failed to send to client") else .ret ()

def loggedSendReply (job : Job) (serverAddress : List Address) (keepAlive : Bool)
    (reply : List UInt8) : LoggedWorker Unit := do
  let reply ← appendCloseHeader keepAlive reply
  let result ← (trySendInChunks (.client job.clientSocketFd) reply reply.length).silent _
  logUnsent threadId job result
  (freeaddrinfo serverAddress).silent _

def loggedAnswerRequest (fuel : ℕ) (locals : Locals) (table : BlockTable) (job : Job)
    (out : ParseOut) (version : List UInt8) : LoggedWorker Unit := do
  let reply ← copyIntoBuffer [] version
  logSocket threadId job (cstr job.request 0)
  let resolved ← loggedResolveHost table (cstr out.hostname 0)
  if out.isGet = false then do
    let reply ← copyIntoBuffer reply (text "405 Method Not Allowed\r\n")
    loggedSendReply threadId job resolved.2 out.proxyKeepAlive reply
  else
    match resolved with
    | (.blocked, addresses) => do
        let reply ← copyIntoBuffer reply (text "403 Forbidden\r\n")
        logSocket threadId job (text "blocked access to host: " ++ cstr out.hostname 0)
        loggedSendReply threadId job addresses out.proxyKeepAlive reply
    | (.notFound, addresses) => do
        let reply ← copyIntoBuffer reply (text "404 Not Found\r\n")
        loggedSendReply threadId job addresses out.proxyKeepAlive reply
    | (.error, addresses) => loggedSendReply threadId job addresses out.proxyKeepAlive reply
    | (.ok, []) => .halt .nullPointer
    | (.ok, address :: rest) => do
        let _ ← loggedHandleValidRequest threadId reread fuel locals.cacheFile job address
          (cstr out.path 0) (cstr out.hostname 0)
        (freeaddrinfo (address :: rest)).silent _

/-- The answers after which `process_job` does not look at the host. -/
def loggedRefuse (job : Job) (statusLine : List UInt8) : LoggedWorker Unit := do
  let reply ← copyIntoBuffer [] statusLine
  let _ ← (trySendInChunks (.client job.clientSocketFd) reply reply.length).silent _
  .ret ()

def loggedRespond (fuel : ℕ) (locals : Locals) (table : BlockTable) (job : Job) (out : ParseOut) :
    HttpVersion → LoggedWorker Unit
  | .malformed => loggedRefuse job (text "HTTP/1.1 400 Bad Request\r\n")
  | .notSupported => loggedRefuse job (text "HTTP/1.1 505 HTTP Version Not Supported\r\n")
  | .dotZero => loggedAnswerRequest threadId reread fuel locals table job out (text "HTTP/1.0 ")
  | .dotOne => loggedAnswerRequest threadId reread fuel locals table job out (text "HTTP/1.1 ")

/-- A request that is not going to be served is logged. -/
def logRefused (job : Job) (out : ParseOut) (version : HttpVersion) : LoggedWorker Unit :=
  if version = .malformed ∨ version = .notSupported ∨ out.isGet = false then
    logSocket threadId job
      (text "request-line:\n" ++ cstr job.request 0 ++ text "\n4xx response sent")
  else .ret ()

def loggedParseJob (fuel : ℕ) (locals : Locals) (table : BlockTable) (job : Job) :
    LoggedWorker (JobStatus × Job) := do
  let parsed ← Prog.lift (parseRequestString job.request locals.parseOut)
  if parsed.1 = .fail ∧ job.requestTail ≠ jobRequestBufferSize - 1 then
    .ret (.enqueue, { job with request := parsed.2.1 })
  else do
    let version := if parsed.1 = .fail then .malformed else parsed.2.2.version
    logRefused threadId { job with request := parsed.2.1 } parsed.2.2 version
    loggedRespond threadId reread fuel locals table { job with request := parsed.2.1 } parsed.2.2
      version
    .ret (.terminate, { job with request := parsed.2.1 })

def loggedReadAndParseJob (fuel : ℕ) (locals : Locals) (table : BlockTable) (job : Job) :
    LoggedWorker (JobStatus × Job) :=
  if job.clientSocketFd = -1 then loggedParseJob threadId reread fuel locals table job
  else do
    let received ← (recv (.client job.clientSocketFd) (jobRequestBufferSize - job.requestTail)
      true).silent _
    if received.length = -1 then .ret (.enqueue, job)
    else if received.length = 0 then .ret (.terminate, job)
    else do
      let now ← time.silent _
      loggedParseJob threadId reread fuel locals table (receiveRequest job (received.bytes) now)

def loggedProcessJob (fuel : ℕ) (locals : Locals) (table : BlockTable) (job : Job) :
    LoggedWorker (JobStatus × Job) :=
  if job.expirationTime = 0 then loggedReadAndParseJob threadId reread fuel locals table job
  else do
    let now ← time.silent _
    if job.expirationTime < unsignedTime now then do
      logSocket threadId job (text "Timed Out")
      .ret (.terminate, job)
    else loggedReadAndParseJob threadId reread fuel locals table job

end

end HttpProxy
