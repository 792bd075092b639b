import HttpProxy.Constants
import HttpProxy.Lib.CString

/-!
# Parsing

The request parser and the response-header parser of `parsing.c`, on buffers and
indices as the source has them.  A failed search that is used as a pointer, a negative
copy length and a write outside its buffer are faults.
-/

namespace HttpProxy

open CString

inductive HttpVersion where
  | malformed
  | notSupported
  | dotZero
  | dotOne
  deriving DecidableEq, Repr

/-- The variables of the caller that `parse_request_string` assigns through pointers. -/
structure ParseOut where
  isGet : Bool
  hostname : List UInt8
  path : List UInt8
  version : HttpVersion
  proxyKeepAlive : Bool
  deriving DecidableEq, Repr

/-- `matches_command`, on the string its first argument points to. -/
def matchesCommand (target : List UInt8) (command : String) : Bool :=
  strncmpEq target (text command) (text command).length

def matchesCommandCaseInsensitive (target : List UInt8) (command : String) : Bool :=
  strncasecmpEq target (text command) (text command).length

/-- `strncpy(dst, src, n)` with a length the source computes by pointer arithmetic. -/
def copyChecked (dst src : List UInt8) (n : ℤ) : Except Fault (List UInt8) :=
  if n < 0 then .error .negativeLength
  else if (dst.length : ℤ) < n then .error .outOfBounds
  else .ok (strncpy dst src n.toNat)

/-- `dst[i] = '\0'`. -/
def terminateChecked (dst : List UInt8) (i : ℤ) : Except Fault (List UInt8) :=
  if i < 0 ∨ (dst.length : ℤ) ≤ i then .error .outOfBounds
  else .ok (dst.set i.toNat 0)

/-- `strncpy(dst, src, n); dst[i] = '\0';` -/
def copyName (dst src : List UInt8) (n i : ℤ) : Except Fault (List UInt8) := do
  let dst ← copyChecked dst src n
  terminateChecked dst i

/-- The version of the request line, read off the text after its last space. -/
def requestVersion (token : List UInt8) : HttpVersion :=
  if !matchesCommand token "HTTP/" then .malformed
  else if matchesCommand token "HTTP/1.1" then .dotOne
  else if matchesCommand token "HTTP/1.0" then .dotZero
  else .notSupported

/-- Whether the method is GET, and `none` for a method the proxy does not know. -/
def requestMethod (line : List UInt8) : Option Bool :=
  if matchesCommand line "GET" then some true
  else if matchesCommand line "HEAD" then some false
  else if matchesCommand line "POST" then some false
  else if matchesCommand line "PUT" then some false
  else if matchesCommand line "DELETE" then some false
  else if matchesCommand line "CONNECT" then some false
  else if matchesCommand line "TRACE" then some false
  else if matchesCommand line "PATCH" then some false
  else if matchesCommand line "OPTIONS" then some false
  else none

/-- Strip the last character of the path if it is a slash, unless it is all there is. -/
def stripLastSlash (path : List UInt8) : Except Fault (List UInt8) :=
  match strrchr path 0 47 with
  | none => .error .nullPointer
  | some slash =>
      if slash ≠ 0 ∧ some (slash + 1) = strrchr path 0 0 then .ok (path.set slash 0)
      else .ok path

/-- Host and path of the url that starts at `dividerA`.  A url that is not absolute
marks the request as malformed, but parsing goes on. -/
def copyUrl (request : List UInt8) (dividerA : ℕ) (out : ParseOut) : Except Fault ParseOut :=
  if !matchesCommandCaseInsensitive (cstr request dividerA) "http://" then
    .ok { out with version := .malformed }
  else
    match strchr request (dividerA + 7) 47 with
    | none => .error .nullPointer
    | some slash => do
        let hostname ← copyName out.hostname (cstr request (dividerA + 7))
          ((slash : ℤ) - dividerA - 7) ((slash : ℤ) - dividerA - 7)
        let path ← copyChecked out.path (cstr request slash) maxUrlSize
        let path ← stripLastSlash path
        .ok { out with hostname := hostname, path := path }

/-- `while (*divider_a == ' ') divider_a++;` -/
def skipSpaces (s : List UInt8) (p : ℕ) : ℕ :=
  p + ((s.drop p).takeWhile (· == space)).length

/-- The value of the `Host` line that starts at `dividerA` and ends at `dividerB`. -/
def captureHost (request : List UInt8) (dividerA dividerB : ℕ) (hostname : List UInt8) :
    Except Fault (List UInt8) :=
  match strchr request dividerA space with
  | none => .error .nullPointer
  | some dividerA =>
      let dividerA := skipSpaces request dividerA
      copyName hostname (cstr request dividerA) ((dividerB : ℤ) - dividerA - 2)
        ((dividerB : ℤ) - dividerA - 1)

/-- The loop over the header lines. -/
def parseHeaders : ℕ → List UInt8 → ℕ → ParseOut → Except Fault ParseOut
  | 0, _, _, _ => .error .outOfFuel
  | fuel + 1, request, dividerA, out =>
      match strchr request dividerA lf with
      | none => .ok out
      | some dividerB =>
          if matchesCommandCaseInsensitive (cstr request dividerA)
              "Proxy-Connection: keep-alive" then
            parseHeaders fuel request (dividerB + 1) { out with proxyKeepAlive := true }
          else if matchesCommandCaseInsensitive (cstr request dividerA) "Host: " then do
            let hostname ← captureHost request dividerA dividerB out.hostname
            parseHeaders fuel request (dividerB + 1) { out with hostname := hostname }
          else
            parseHeaders fuel request (dividerB + 1) out

/-- From the url on, with the request line already cut off at its line feed and its
version and method known.  `dividerB` is the last space of the line. -/
def parseUrlAndHeaders (request : List UInt8) (endOfFirstLine dividerB : ℕ) (out : ParseOut) :
    Except Fault (Status × List UInt8 × ParseOut) :=
  match strchr request 0 space with
  | none => .error .nullPointer
  | some firstSpace =>
      let dividerA := firstSpace + 1
      let request := request.set dividerB 0
      if dividerA ≥ dividerB then
        .ok (.success, request, { out with version := .malformed })
      else do
        let out ← copyUrl request dividerA out
        let request := request.set dividerB space
        let out ← parseHeaders (request.length + 1) request (endOfFirstLine + 1)
          { out with proxyKeepAlive := false }
        .ok (.success, request, out)

/-- `parse_request_string`: the status, the request as it is left behind and the
variables of the caller. -/
def parseRequestString (request : List UInt8) (out : ParseOut) :
    Except Fault (Status × List UInt8 × ParseOut) :=
  match strchr request 0 lf with
  | none => .ok (.fail, request, out)
  | some endOfFirstLine =>
      let request := request.set endOfFirstLine 0
      match strrchr request 0 space with
      | none => .ok (.success, request, { out with version := .malformed })
      | some dividerB =>
          let version := requestVersion (cstr request (dividerB + 1))
          if version = .malformed ∨ version = .notSupported then
            .ok (.success, request, { out with version := version })
          else
            match requestMethod (cstr request 0) with
            | none => .ok (.success, request, { out with version := .malformed })
            | some isGet =>
                parseUrlAndHeaders request endOfFirstLine dividerB
                  { out with version := version, isGet := isGet }

/-! ## Response headers -/

/-- The value of the first `Content-length` line among the complete lines from
`dividerA` on, and `-1` if there is none. -/
def findContentLength : ℕ → List UInt8 → ℕ → Except Fault ℤ
  | 0, _, _ => .error .outOfFuel
  | fuel + 1, response, dividerA =>
      match strchr response dividerA lf with
      | none => .ok (-1)
      | some dividerB =>
          if matchesCommandCaseInsensitive (cstr response dividerA) "Content-length: " then
            match strchr response dividerA space with
            | none => .error .nullPointer
            | some dividerA => .ok (atoi (cstr response dividerA))
          else findContentLength fuel response (dividerB + 1)

/-- The loop that looks for an empty line, from the carriage return at `dividerA` on. -/
def findHeaderEnd : ℕ → List UInt8 → Option ℕ → Except Fault ℤ
  | 0, _, _ => .error .outOfFuel
  | _ + 1, _, none => .ok (-1)
  | fuel + 1, response, some dividerA =>
      if matchesCommand (cstr response dividerA) "\r\n\r\n" then .ok (dividerA + 4)
      else findHeaderEnd fuel response (strchr response (dividerA + 1) cr)

/-- The values an `int` can hold. -/
def InIntRange (n : ℤ) : Prop := -2147483648 ≤ n ∧ n ≤ 2147483647

instance (n : ℤ) : Decidable (InIntRange n) := inferInstanceAs (Decidable (_ ∧ _))

/-- `parse_response_header`: the length of the header and the length of the content. -/
def parseResponseHeader (response : List UInt8) : Except Fault (ℤ × ℤ) := do
  let contentLength ← findContentLength (response.length + 1) response 0
  if ¬InIntRange contentLength then .error .signedOverflow
  else if contentLength = -1 then
    match strrchr response 0 lf with
    | none => .error .nullPointer
    | some dividerB => .ok (dividerB + 1, contentLength)
  else do
    let headerLength ← findHeaderEnd (response.length + 1) response (strchr response 0 cr)
    .ok (headerLength, contentLength)

end HttpProxy
