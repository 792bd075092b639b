import HttpProxy.BlockTable
import HttpProxy.Prefetch

/-!
# The worker

`worker.c` from the sending loop up to `process_job`.  Log output is left out; a loop
whose length the surroundings decide takes an iteration bound.
-/

namespace HttpProxy

open CString Interaction

/-- The loop of `try_send_in_chunks` over the bytes that are still to be sent. -/
def sendLoop (socket : Socket) : ℕ → List UInt8 → Worker Status
  | _, [] => .ret .success
  | 0, _ :: _ => .halt .outOfFuel
  | fuel + 1, c :: rest => do
      let alive ← peek socket
      if alive.length = 0 then .ret .fail
      else
        let sent ← send socket (c :: rest)
        match sent with
        | none => .ret .fail
        | some n => sendLoop socket fuel ((c :: rest).drop n.val)

def trySendInChunks (socket : Socket) (buffer : List UInt8) (length : ℤ) : Worker Status :=
  if socket.fd = -1 then .ret .success
  else sendLoop socket length.toNat (buffer.take length.toNat)

/-- A negative length would become a huge one when `fwrite` converts it. -/
def cacheAndSend (clientSocket : Socket) (cacheFile : Option FileHandle) (buffer : List UInt8)
    (length : ℤ) : Worker Status :=
  match cacheFile with
  | none => trySendInChunks clientSocket buffer length
  | some file =>
      if length < 0 then .halt .negativeLength
      else do
        fwrite file (buffer.take length.toNat)
        trySendInChunks clientSocket buffer length

/-! ## Serving a request -/

/-- The loop that sends the cached file, with the read that precedes each round. -/
def sendCachedLoop : ℕ → Socket → FileHandle → Worker Status
  | 0, _, _ => .halt .outOfFuel
  | fuel + 1, clientSocket, cacheFile => do
      let bytes ← fread cacheFile jobRequestBufferSize
      if bytes.val = [] then .ret .success
      else
        let result ← trySendInChunks clientSocket bytes.val bytes.val.length
        if result = .fail then .ret .fail else sendCachedLoop fuel clientSocket cacheFile

def serveCached (fuel : ℕ) (job : Job) (record : RecordRef) (cacheFile : FileHandle)
    (hostname : List UInt8) : Worker Status := do
  let result ← sendCachedLoop fuel (.client job.clientSocketFd) cacheFile
  if result = .fail then do
    fclose cacheFile
    cacheRecordClose record .shouldRead
    .ret .fail
  else do
    dispatchPrefetchJobs fuel (some cacheFile) hostname
    fclose cacheFile
    cacheRecordClose record .shouldRead
    .ret .success

/-- The loop that keeps receiving until the declared length has been read. -/
def relayLoop : ℕ → ℤ → Socket → Option FileHandle → ℤ → ℤ → Worker Unit
  | 0, _, _, _, _, _ => .halt .outOfFuel
  | fuel + 1, serverSocketFd, clientSocket, cacheFile, contentLength, contentRead =>
      if contentLength > contentRead then do
        let received ← recv (.server serverSocketFd) jobRequestBufferSize false
        let contentRead := contentRead + received.length
        if ¬InIntRange contentRead then .halt .signedOverflow
        else
          let result ← cacheAndSend clientSocket cacheFile (received.bytes)
            (received.length)
          if result = .fail then .ret ()
          else relayLoop fuel serverSocketFd clientSocket cacheFile contentLength contentRead
      else .ret ()

/-- The rest of a response whose first chunk was shorter than header and content. -/
def relayRest (fuel : ℕ) (serverSocketFd : ℤ) (clientSocket : Socket)
    (cacheFile : Option FileHandle) (lengths : ℤ × ℤ) (bytesRead : ℤ) : Worker Unit :=
  if ¬InIntRange (lengths.1 + lengths.2) then .halt .signedOverflow
  else if bytesRead < lengths.1 + lengths.2 then
    relayLoop fuel serverSocketFd clientSocket cacheFile lengths.2 (bytesRead - lengths.1)
  else .ret ()

/-- The response buffer, which was cleared before the first `recv`. -/
def responseBuffer (bytes : List UInt8) : List UInt8 :=
  bytes ++ List.replicate (jobRequestBufferSize + 1 - bytes.length) 0

/-- Only a response that went to a client is scanned for links. -/
def dispatchForClient (fuel : ℕ) (job : Job) (cacheFile : Option FileHandle)
    (hostname : List UInt8) : Worker Unit :=
  if job.clientSocketFd ≠ -1 then dispatchPrefetchJobs fuel cacheFile hostname else .ret ()

/-- What a writer does after the relay. -/
def finishWrite (fuel : ℕ) (job : Job) (record : RecordRef) (cacheFile : Option FileHandle)
    (hostname : List UInt8) : Worker Unit := do
  dispatchForClient fuel job cacheFile hostname
  let file ← nonNullFile cacheFile
  fclose file
  cacheRecordClose record .shouldWrite

/-- A writer leaves its file and its record in order. -/
def finishRelay (fuel : ℕ) (job : Job) (grant : Grant) (cacheFile : Option FileHandle)
    (hostname : List UInt8) : Worker Status :=
  match grant with
  | .shouldWrite record => do
      finishWrite fuel job record cacheFile hostname
      .ret .success
  | _ => .ret .success

/-- From the first `recv` of the response to the end of the request. -/
def relayResponse (fuel : ℕ) (job : Job) (grant : Grant) (cacheFile : Option FileHandle)
    (serverSocketFd : ℤ) (hostname : List UInt8) : Worker Status := do
  let received ← recv (.server serverSocketFd) jobRequestBufferSize false
  let lengths ← Prog.lift (parseResponseHeader (responseBuffer (received.bytes)))
  let result ← cacheAndSend (.client job.clientSocketFd) cacheFile (received.bytes)
    (received.length)
  if result = .fail then .ret .fail
  else do
    relayRest fuel serverSocketFd (.client job.clientSocketFd) cacheFile lengths received.length
    close serverSocketFd
    finishRelay fuel job grant cacheFile hostname

def upstreamRequest (path hostname : List UInt8) : List UInt8 :=
  text "GET " ++ path ++ text " HTTP/1.1\r\nHost: " ++ hostname ++
    text "\r\nConnection: close\r\nProxy-Connection: close\r\n\r\n"

def closeIfOpen : Option FileHandle → Worker Unit
  | none => .ret ()
  | some file => fclose file

/-- The miss path, with the cache file open if there is one. -/
def fetch (fuel : ℕ) (job : Job) (grant : Grant) (cacheFile : Option FileHandle)
    (serverAddress : Address) (path hostname : List UInt8) : Worker Status := do
  let serverSocketFd ← newSocket
  let connected ← connect serverSocketFd serverAddress
  if connected = false then do
    closeIfOpen cacheFile
    .ret .fail
  else
    let result ← trySendInChunks (.server serverSocketFd) (upstreamRequest path hostname)
      (upstreamRequest path hostname).length
    if result = .fail then do
      closeIfOpen cacheFile
      .ret .fail
    else relayResponse fuel job grant cacheFile serverSocketFd hostname

def cacheFilePath (record : RecordRef) : List UInt8 := cacheFileRoot ++ 47 :: record.name

/-- What `handle_valid_request` does with the answer of the cache.  `cacheFile` is the
value its local variable has before it is assigned. -/
def serveGrant (fuel : ℕ) (cacheFile : Option FileHandle) (job : Job) (grant : Grant)
    (serverAddress : Address) (path hostname : List UInt8) : Worker Status :=
  if job.clientSocketFd = -1 ∧ grant.action ≠ .shouldWrite then do
    let record ← nonNullRecord grant.record
    cacheRecordClose record grant.action
    .ret .success
  else
    match grant with
    | .unavailable _ => fetch fuel job grant cacheFile serverAddress path hostname
    | .shouldRead record => do
        let cacheFile ← fopen (cacheFilePath record) .read
        match cacheFile with
        | some cacheFile => serveCached fuel job record cacheFile hostname
        | none => fetch fuel job grant none serverAddress path hostname
    | .shouldWrite record => do
        let cacheFile ← fopen (cacheFilePath record) .write
        fetch fuel job grant cacheFile serverAddress path hostname

/-- `handle_valid_request` on the texts of path and hostname.  A path with a question
mark is not looked up in the cache. -/
def handleValidRequest (fuel : ℕ) (cacheFile : Option FileHandle) (job : Job)
    (serverAddress : Address) (path hostname : List UInt8) : Worker Status :=
  if 63 ∈ path then serveGrant fuel cacheFile job (.unavailable none) serverAddress path hostname
  else do
    let grant ← cacheRecordGetOrCreate (hostname ++ path)
    serveGrant fuel cacheFile job grant serverAddress path hostname

/-! ## Resolving the host -/

inductive HostStatus where
  | ok
  | error
  | notFound
  | blocked
  deriving DecidableEq, Repr

/-- The walk along the addresses; the result is the list from the first one that is not
blocked on, and empty for NULL. -/
def checkAddresses (table : BlockTable) (head : List Address) :
    List Address → Worker (HostStatus × List Address)
  | [] => .halt .nullPointer
  | address :: rest =>
      if blockTableCheck table (inetNtop address) then
        match rest with
        | [] => do
            freeaddrinfo head
            .ret (.blocked, [])
        | _ :: _ => checkAddresses table head rest
      else .ret (.ok, address :: rest)

/-- The name before the first colon and the port after it. -/
def splitHostname (hostname : List UInt8) : List UInt8 × Option (List UInt8) :=
  match hostname.idxOf? 58 with
  | none => (hostname, none)
  | some i => (hostname.take i, some (hostname.drop (i + 1)))

def resolveHost (table : BlockTable) (hostname : List UInt8) :
    Worker (HostStatus × List Address) :=
  if blockTableCheck table (splitHostname hostname).1 then .ret (.blocked, [])
  else do
    let resolved ← getaddrinfo (splitHostname hostname).1
      ((splitHostname hostname).2.getD (text "http"))
    match resolved with
    | none => .ret (.notFound, [])
    | some addresses => checkAddresses table addresses.val addresses.val

/-! ## Processing a job -/

/-- The values the uninitialised locals of `process_job` and `handle_valid_request`
happen to have. -/
structure Locals where
  requestIsGet : Bool
  requestVersion : HttpVersion
  requestKeepAlive : Bool
  cacheFile : Option FileHandle

def Locals.parseOut (locals : Locals) : ParseOut where
  isGet := locals.requestIsGet
  hostname := List.replicate (maxNameLength + 1) 0
  path := List.replicate (maxUrlSize + 1) 0
  version := locals.requestVersion
  proxyKeepAlive := locals.requestKeepAlive

def sendReply (job : Job) (serverAddress : List Address) (reply : List UInt8) :
    Worker Unit := do
  let _ ← trySendInChunks (.client job.clientSocketFd) reply reply.length
  freeaddrinfo serverAddress

def closeHeader (keepAlive : Bool) : List UInt8 :=
  if keepAlive then text "Proxy-Connection: close\r\n\r\n" else []

/-- The part of `process_job` that follows a supported request line, with the version
that starts the status line. -/
def answerRequest (fuel : ℕ) (locals : Locals) (table : BlockTable) (job : Job) (out : ParseOut)
    (version : List UInt8) : Worker Unit := do
  let resolved ← resolveHost table (cstr out.hostname 0)
  if out.isGet = false then
    sendReply job resolved.2
      (version ++ text "405 Method Not Allowed\r\n" ++ closeHeader out.proxyKeepAlive)
  else
    match resolved with
    | (.blocked, addresses) =>
        sendReply job addresses
          (version ++ text "403 Forbidden\r\n" ++ closeHeader out.proxyKeepAlive)
    | (.notFound, addresses) =>
        sendReply job addresses
          (version ++ text "404 Not Found\r\n" ++ closeHeader out.proxyKeepAlive)
    | (.error, addresses) =>
        sendReply job addresses (version ++ closeHeader out.proxyKeepAlive)
    | (.ok, []) => .halt .nullPointer
    | (.ok, address :: rest) => do
        let _ ← handleValidRequest fuel locals.cacheFile job address (cstr out.path 0)
          (cstr out.hostname 0)
        freeaddrinfo (address :: rest)

def respond (fuel : ℕ) (locals : Locals) (table : BlockTable) (job : Job) (out : ParseOut) :
    HttpVersion → Worker Unit
  | .malformed => do
      let reply := text "HTTP/1.1 400 Bad Request\r\n"
      let _ ← trySendInChunks (.client job.clientSocketFd) reply reply.length
      .ret ()
  | .notSupported => do
      let reply := text "HTTP/1.1 505 HTTP Version Not Supported\r\n"
      let _ ← trySendInChunks (.client job.clientSocketFd) reply reply.length
      .ret ()
  | .dotZero => answerRequest fuel locals table job out (text "HTTP/1.0 ")
  | .dotOne => answerRequest fuel locals table job out (text "HTTP/1.1 ")

/-- Parse what the job holds.  Without a complete first line it waits for more, unless
all but the last byte of the buffer are used. -/
def parseJob (fuel : ℕ) (locals : Locals) (table : BlockTable) (job : Job) :
    Worker (JobStatus × Job) := do
  let parsed ← Prog.lift (parseRequestString job.request locals.parseOut)
  if parsed.1 = .fail ∧ job.requestTail ≠ jobRequestBufferSize - 1 then
    .ret (.enqueue, { job with request := parsed.2.1 })
  else do
    respond fuel locals table { job with request := parsed.2.1 } parsed.2.2
      (if parsed.1 = .fail then .malformed else parsed.2.2.version)
    .ret (.terminate, { job with request := parsed.2.1 })

/-- `time(NULL)` as an `unsigned int`. -/
def unsignedTime (now : ℕ) : ℕ := now % 4294967296

def receiveRequest (job : Job) (bytes : List UInt8) (now : ℕ) : Job :=
  { job with
    request := job.request.take job.requestTail ++ bytes ++
      job.request.drop (job.requestTail + bytes.length)
    requestTail := job.requestTail + bytes.length
    expirationTime := (unsignedTime now + keepAliveTimeout) % 4294967296 }

/-- A client job reads once; a prefetch job already has its request. -/
def readAndParseJob (fuel : ℕ) (locals : Locals) (table : BlockTable) (job : Job) :
    Worker (JobStatus × Job) :=
  if job.clientSocketFd = -1 then parseJob fuel locals table job
  else do
    let received ← recv (.client job.clientSocketFd) (jobRequestBufferSize - job.requestTail) true
    if received.length = -1 then .ret (.enqueue, job)
    else if received.length = 0 then .ret (.terminate, job)
    else do
      let now ← time
      parseJob fuel locals table (receiveRequest job (received.bytes) now)

/-- `process_job`: the status for the worker loop and the job as it is left. -/
def processJob (fuel : ℕ) (locals : Locals) (table : BlockTable) (job : Job) :
    Worker (JobStatus × Job) :=
  if job.expirationTime = 0 then readAndParseJob fuel locals table job
  else do
    let now ← time
    if job.expirationTime < unsignedTime now then .ret (.terminate, job)
    else readAndParseJob fuel locals table job

end HttpProxy
