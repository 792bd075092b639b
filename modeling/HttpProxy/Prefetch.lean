import HttpProxy.Parsing
import HttpProxy.System

/-!
# Prefetching

`find_href` of `parsing.c` and `dispatch_prefetch_jobs` of `worker.c`.
-/

namespace HttpProxy

open CString Interaction

/-- What the search through one buffer comes to. -/
inductive ScanResult where
  | noLink
  | unclosed
  | link (start closingQuote : ℕ)
  deriving DecidableEq, Repr

/-- The search for `href=` from the `h` at `foundH` on. -/
def scanHref : ℕ → List UInt8 → Option ℕ → Except Fault ScanResult
  | 0, _, _ => .error .outOfFuel
  | _ + 1, _, none => .ok .noLink
  | fuel + 1, buffer, some foundH =>
      if matchesCommand (cstr buffer foundH) "href=" then
        match strchr buffer (foundH + 6) 34 with
        | some closingQuote => .ok (.link (foundH + 6) closingQuote)
        | none => .ok .unclosed
      else scanHref fuel buffer (strchr buffer (foundH + 1) 104)

inductive HrefResult where
  | finished
  | fail
  | success (link : List UInt8)
  deriving DecidableEq, Repr

/-- The reads of `find_href`.  Each one overwrites the front of the local buffer and
leaves the bytes behind it as they were. -/
def findHrefLoop : ℕ → FileHandle → List UInt8 → Worker HrefResult
  | 0, _, _ => .halt .outOfFuel
  | fuel + 1, file, fileBuffer => do
      let bytes ← fread file maxUrlSize
      if bytes.val = [] then .ret .finished
      else
        let fileBuffer := bytes.val ++ fileBuffer.drop bytes.val.length
        let result ← Prog.lift
          (scanHref (fileBuffer.length + 1) fileBuffer (strchr fileBuffer 0 104))
        match result with
        | .noLink => findHrefLoop fuel file fileBuffer
        | .unclosed => .ret .fail
        | .link start closingQuote =>
            if maxUrlSize < closingQuote - start then .halt .outOfBounds
            else do
              fseek file .current (-((bytes.val.length : ℤ) - closingQuote))
              .ret (.success ((fileBuffer.drop start).take (closingQuote - start)))

def findHref (fuel : ℕ) (file : FileHandle) : Worker HrefResult := do
  let fileBuffer ← indeterminate (jobRequestBufferSize + 1)
  findHrefLoop fuel file fileBuffer.val

def dispatchRequest (hostname foundLink : List UInt8) : List UInt8 :=
  if matchesCommand foundLink "/" then
    text "GET http://" ++ hostname ++ foundLink ++ text " HTTP/1.1\r\n\r\n"
  else text "GET " ++ foundLink ++ text " HTTP/1.1\r\n\r\n"

def prefetchJob (hostname foundLink : List UInt8) : Job :=
  { jobConstruct (-1) with
    request := strncpy (jobConstruct (-1)).request (dispatchRequest hostname foundLink)
      jobRequestBufferSize
    requestTail := (dispatchRequest hostname foundLink).length }

def dispatchLoop : ℕ → FileHandle → List UInt8 → Worker Unit
  | 0, _, _ => .halt .outOfFuel
  | fuel + 1, file, hostname => do
      let result ← findHref fuel file
      match result with
      | .finished => .ret ()
      | .fail => dispatchLoop fuel file hostname
      | .success foundLink =>
          if matchesCommand foundLink "http://" ∨ matchesCommand foundLink "/" then do
            let _ ← jobStackPushJob (prefetchJob hostname foundLink)
            dispatchLoop fuel file hostname
          else dispatchLoop fuel file hostname

def dispatchPrefetchJobs (fuel : ℕ) (cachedResponse : Option FileHandle)
    (hostname : List UInt8) : Worker Unit := do
  let file ← nonNullFile cachedResponse
  fseek file .start 0
  dispatchLoop fuel file hostname

end HttpProxy
