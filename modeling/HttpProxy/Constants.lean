import Mathlib.Data.Int.Notation
import Mathlib.Tactic.Common

/-!
# Constants of the proxy

The values of `constants.h`, `block-table.h` and `cache-record.c`, and byte strings
written as text.
-/

namespace HttpProxy

/-- The result codes shared by the parser, the job stack and the workers. -/
inductive Status where
  | finished
  | success
  | fail
  deriving DecidableEq, Repr

/-- What `process_job` tells the worker loop to do with the job. -/
inductive JobStatus where
  | terminate
  | enqueue
  deriving DecidableEq, Repr

def jobRequestBufferSize : ℕ := 4096

def maxUrlSize : ℕ := 2048

def maxNameLength : ℕ := 256

/-- `URL_MAX_LENGTH` of `cache-record.c`: longer urls are never cached. -/
def urlMaxLength : ℕ := 2048

/-- The size of the name of a cache record. -/
def cacheHashLength : ℕ := 33

def printoutBufferSize : ℕ := 512

/-- Seconds a client connection may stay silent. -/
def keepAliveTimeout : ℕ := 10

def clientWorkerThreads : ℕ := 4

def prefetchWorkerThreads : ℕ := 4

/-- The most jobs that `main` puts on the clients' stack. -/
def clientJobStackSize : ℕ := 32

/-- The bytes of a text, without the terminating NUL. -/
def text (s : String) : List UInt8 := s.toList.map fun c ↦ c.toNat.toUInt8

def cacheFileRoot : List UInt8 := text "./cache"

def lf : UInt8 := 10

def cr : UInt8 := 13

def space : UInt8 := 32

def crlf : List UInt8 := text "\r\n"

/-- Operations of the source that C leaves undefined, as the outcome of a run that
reaches one.  `outOfFuel` is no behaviour of the program: it ends a loop of the model
whose iteration bound was too small. -/
inductive Fault where
  | nullPointer
  | negativeLength
  | outOfBounds
  | signedOverflow
  | nullRecord
  | nullFile
  | outOfFuel
  deriving DecidableEq, Repr

end HttpProxy
