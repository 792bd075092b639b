import HttpProxy.CacheRecord
import HttpProxy.Lib.Interaction

/-!
# What a worker calls

The sockets, files, name resolution, cache table and prefetch stack as operations with
typed answers.  A call that fails in C answers `error` or `none`.
-/

namespace HttpProxy

open Interaction

/-- A socket descriptor and the side it connects to. -/
inductive Socket where
  | client (fd : ℤ)
  | server (fd : ℤ)
  deriving DecidableEq, Repr

def Socket.fd : Socket → ℤ
  | client fd => fd
  | server fd => fd

/-- `-1`, or the bytes received; no bytes mean that the other side has closed. -/
inductive RecvResult (size : ℕ) where
  | error
  | data (bytes : List UInt8) (fits : bytes.length ≤ size)
  deriving DecidableEq, Repr

def RecvResult.length {size : ℕ} : RecvResult size → ℤ
  | error => -1
  | data bytes _ => bytes.length

def RecvResult.bytes {size : ℕ} : RecvResult size → List UInt8
  | error => []
  | data bytes _ => bytes

structure Address where
  a : UInt8
  b : UInt8
  c : UInt8
  d : UInt8
  port : UInt16
  deriving DecidableEq, Repr

abbrev FileHandle := ℕ

inductive OpenMode where
  | read
  | write
  deriving DecidableEq, Repr

inductive Whence where
  | start
  | current
  deriving DecidableEq, Repr

/-- A pointer to a cache record, and the name that can be read through it. -/
structure RecordRef where
  address : ℕ
  name : List UInt8
  deriving DecidableEq, Repr

/-- The record and the status that `cache_record_get_or_create` returns. -/
inductive Grant where
  | unavailable (record : Option RecordRef)
  | shouldRead (record : RecordRef)
  | shouldWrite (record : RecordRef)
  deriving DecidableEq, Repr

def Grant.action : Grant → ActionStatus
  | unavailable _ => .unavailable
  | shouldRead _ => .shouldRead
  | shouldWrite _ => .shouldWrite

def Grant.record : Grant → Option RecordRef
  | unavailable record => record
  | shouldRead record => some record
  | shouldWrite record => some record

/-- `struct job_info`. -/
structure Job where
  clientSocketFd : ℤ
  request : List UInt8
  requestTail : ℕ
  expirationTime : ℕ
  deriving DecidableEq, Repr

def jobConstruct (clientSocketFd : ℤ) : Job where
  clientSocketFd := clientSocketFd
  request := List.replicate (jobRequestBufferSize + 1) 0
  requestTail := 0
  expirationTime := 0

/-- The calls of a worker.  `peek` is the `recv` that only looks whether the other side
is still there, and `indeterminate` stands for a local array before it is written. -/
inductive Op where
  | time
  | recv (socket : Socket) (size : ℕ) (dontWait : Bool)
  | peek (socket : Socket)
  | send (socket : Socket) (bytes : List UInt8)
  | socket
  | connect (fd : ℤ) (address : Address)
  | close (fd : ℤ)
  | getaddrinfo (name service : List UInt8)
  | freeaddrinfo (addresses : List Address)
  | fopen (path : List UInt8) (mode : OpenMode)
  | fread (file : FileHandle) (size : ℕ)
  | fwrite (file : FileHandle) (bytes : List UInt8)
  | fseek (file : FileHandle) (whence : Whence) (offset : ℤ)
  | fclose (file : FileHandle)
  | cacheRecordGetOrCreate (url : List UInt8)
  | cacheRecordClose (record : RecordRef) (status : ActionStatus)
  | jobStackPush (job : Job)
  | indeterminate (size : ℕ)

/-- The answers.  `send` takes at least one byte when it does not fail, and
`getaddrinfo` returns a non-empty list or an error. -/
abbrev Resp : Op → Type
  | .time => ℕ
  | .recv _ size _ => RecvResult size
  | .peek _ => RecvResult 999
  | .send _ bytes => Option { n : ℕ // 0 < n ∧ n ≤ bytes.length }
  | .socket => ℤ
  | .connect _ _ => Bool
  | .close _ => Unit
  | .getaddrinfo _ _ => Option { addresses : List Address // addresses ≠ [] }
  | .freeaddrinfo _ => Unit
  | .fopen _ _ => Option FileHandle
  | .fread _ size => { bytes : List UInt8 // bytes.length ≤ size }
  | .fwrite _ _ => Unit
  | .fseek _ _ _ => Unit
  | .fclose _ => Unit
  | .cacheRecordGetOrCreate _ => Grant
  | .cacheRecordClose _ _ => Unit
  | .jobStackPush _ => Status
  | .indeterminate size => { bytes : List UInt8 // bytes.length = size }

/-- Code of a worker that computes an `α`. -/
abbrev Worker (α : Type) := Prog Resp Fault α

section

variable (socket : Socket) (file : FileHandle) (record : RecordRef)

def time : Worker ℕ := Prog.perform Op.time

def recv (size : ℕ) (dontWait : Bool) : Worker (RecvResult size) :=
  Prog.perform (Op.recv socket size dontWait)

def peek : Worker (RecvResult 999) := Prog.perform (Op.peek socket)

def send (bytes : List UInt8) : Worker (Option { n : ℕ // 0 < n ∧ n ≤ bytes.length }) :=
  Prog.perform (Op.send socket bytes)

def newSocket : Worker ℤ := Prog.perform Op.socket

def connect (fd : ℤ) (address : Address) : Worker Bool := Prog.perform (Op.connect fd address)

def close (fd : ℤ) : Worker Unit := Prog.perform (Op.close fd)

def getaddrinfo (name service : List UInt8) :
    Worker (Option { addresses : List Address // addresses ≠ [] }) :=
  Prog.perform (Op.getaddrinfo name service)

def freeaddrinfo (addresses : List Address) : Worker Unit :=
  Prog.perform (Op.freeaddrinfo addresses)

def fopen (path : List UInt8) (mode : OpenMode) : Worker (Option FileHandle) :=
  Prog.perform (Op.fopen path mode)

def fread (size : ℕ) : Worker { bytes : List UInt8 // bytes.length ≤ size } :=
  Prog.perform (Op.fread file size)

def fwrite (bytes : List UInt8) : Worker Unit := Prog.perform (Op.fwrite file bytes)

def fseek (whence : Whence) (offset : ℤ) : Worker Unit :=
  Prog.perform (Op.fseek file whence offset)

def fclose : Worker Unit := Prog.perform (Op.fclose file)

def cacheRecordGetOrCreate (url : List UInt8) : Worker Grant :=
  Prog.perform (Op.cacheRecordGetOrCreate url)

def cacheRecordClose (status : ActionStatus) : Worker Unit :=
  Prog.perform (Op.cacheRecordClose record status)

def jobStackPushJob (job : Job) : Worker Status := Prog.perform (Op.jobStackPush job)

def indeterminate (size : ℕ) : Worker { bytes : List UInt8 // bytes.length = size } :=
  Prog.perform (Op.indeterminate size)

/-! A call followed by a program is a node of the tree. -/

variable {β : Type}

@[simp] theorem time_bind (f : ℕ → Worker β) : time >>= f = .call .time f := rfl

@[simp] theorem recv_bind (size : ℕ) (dontWait : Bool) (f : RecvResult size → Worker β) :
    recv socket size dontWait >>= f = .call (.recv socket size dontWait) f :=
  rfl

@[simp] theorem peek_bind (f : RecvResult 999 → Worker β) :
    peek socket >>= f = .call (.peek socket) f :=
  rfl

@[simp] theorem send_bind (bytes : List UInt8)
    (f : Option { n : ℕ // 0 < n ∧ n ≤ bytes.length } → Worker β) :
    send socket bytes >>= f = .call (.send socket bytes) f :=
  rfl

@[simp] theorem newSocket_bind (f : ℤ → Worker β) : newSocket >>= f = .call .socket f := rfl

@[simp] theorem connect_bind (fd : ℤ) (address : Address) (f : Bool → Worker β) :
    connect fd address >>= f = .call (.connect fd address) f :=
  rfl

@[simp] theorem close_bind (fd : ℤ) (f : Unit → Worker β) :
    close fd >>= f = .call (.close fd) f :=
  rfl

@[simp] theorem getaddrinfo_bind (name service : List UInt8)
    (f : Option { addresses : List Address // addresses ≠ [] } → Worker β) :
    getaddrinfo name service >>= f = .call (.getaddrinfo name service) f :=
  rfl

@[simp] theorem freeaddrinfo_bind (addresses : List Address) (f : Unit → Worker β) :
    freeaddrinfo addresses >>= f = .call (.freeaddrinfo addresses) f :=
  rfl

@[simp] theorem fopen_bind (path : List UInt8) (mode : OpenMode)
    (f : Option FileHandle → Worker β) : fopen path mode >>= f = .call (.fopen path mode) f :=
  rfl

@[simp] theorem fread_bind (size : ℕ)
    (f : { bytes : List UInt8 // bytes.length ≤ size } → Worker β) :
    fread file size >>= f = .call (.fread file size) f :=
  rfl

@[simp] theorem fwrite_bind (bytes : List UInt8) (f : Unit → Worker β) :
    fwrite file bytes >>= f = .call (.fwrite file bytes) f :=
  rfl

@[simp] theorem fseek_bind (whence : Whence) (offset : ℤ) (f : Unit → Worker β) :
    fseek file whence offset >>= f = .call (.fseek file whence offset) f :=
  rfl

@[simp] theorem fclose_bind (f : Unit → Worker β) : fclose file >>= f = .call (.fclose file) f :=
  rfl

@[simp] theorem cacheRecordGetOrCreate_bind (url : List UInt8) (f : Grant → Worker β) :
    cacheRecordGetOrCreate url >>= f = .call (.cacheRecordGetOrCreate url) f :=
  rfl

@[simp] theorem cacheRecordClose_bind (status : ActionStatus) (f : Unit → Worker β) :
    cacheRecordClose record status >>= f = .call (.cacheRecordClose record status) f :=
  rfl

@[simp] theorem jobStackPushJob_bind (job : Job) (f : Status → Worker β) :
    jobStackPushJob job >>= f = .call (.jobStackPush job) f :=
  rfl

@[simp] theorem indeterminate_bind (size : ℕ)
    (f : { bytes : List UInt8 // bytes.length = size } → Worker β) :
    indeterminate size >>= f = .call (.indeterminate size) f :=
  rfl

end

def nonNullRecord : Option RecordRef → Worker RecordRef
  | none => .halt .nullRecord
  | some record => .ret record

def nonNullFile : Option FileHandle → Worker FileHandle
  | none => .halt .nullFile
  | some file => .ret file

end HttpProxy
