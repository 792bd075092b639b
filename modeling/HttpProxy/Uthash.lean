import HttpProxy.Constants
import HttpProxy.Lib.ChainedHash

/-!
# uthash

The macros of `uthash.h` behind the block table and the cache table: `HASH_FIND_STR`,
`HASH_ADD_STR` and the expansion of the buckets that an addition may start.  A chain is the list
that `hh_next` links, the application order the one that `next` links.  Counters do not wrap and
`malloc` does not fail.
-/

namespace HttpProxy

open ChainedHash

/-! ## The hash function -/

/-- `HASH_JEN_MIX`. -/
def hashJenMix (a b c : UInt32) : UInt32 × UInt32 × UInt32 :=
  let a := (a - b - c) ^^^ (c >>> 13)
  let b := (b - c - a) ^^^ (a <<< 8)
  let c := (c - a - b) ^^^ (b >>> 13)
  let a := (a - b - c) ^^^ (c >>> 12)
  let b := (b - c - a) ^^^ (a <<< 16)
  let c := (c - a - b) ^^^ (b >>> 5)
  let a := (a - b - c) ^^^ (c >>> 3)
  let b := (b - c - a) ^^^ (a <<< 10)
  let c := (c - a - b) ^^^ (b >>> 15)
  (a, b, c)

/-- A byte of the key, shifted; behind its end there is nothing to add. -/
def keyByte (key : List UInt8) (n : ℕ) (shift : UInt32) : UInt32 :=
  (key.getD n 0).toUInt32 <<< shift

def keyWord (key : List UInt8) (n : ℕ) : UInt32 :=
  keyByte key n 0 + keyByte key (n + 1) 8 + keyByte key (n + 2) 16 + keyByte key (n + 3) 24

/-- The loop of `HASH_JEN` over the blocks of 12 bytes. -/
def hashJenBlocks : ℕ → List UInt8 → UInt32 × UInt32 × UInt32 → UInt32 × UInt32 × UInt32
  | 0, _, state => state
  | n + 1, key, (i, j, hashv) =>
      hashJenBlocks n (key.drop 12)
        (hashJenMix (i + keyWord key 0) (j + keyWord key 4) (hashv + keyWord key 8))

/-- `HASH_JEN`. -/
def hashJen (key : List UInt8) : UInt32 :=
  let blocks := hashJenBlocks (key.length / 12) key (0x9e3779b9, 0x9e3779b9, 0xfeedbeef)
  let rest := key.drop (key.length / 12 * 12)
  -- the lowest byte of `hashv` is left to the length
  let hashv := blocks.2.2 + key.length.toUInt32 + keyByte rest 8 8 + keyByte rest 9 16 +
    keyByte rest 10 24
  (hashJenMix (blocks.1 + keyWord rest 0) (blocks.2.1 + keyWord rest 4) hashv).2.2

/-! ## The table -/

/-- `UT_hash_handle`, with the element that holds it. -/
structure UtHashHandle (α : Type) where
  element : α
  key : List UInt8
  hashv : UInt32

structure UtHashBucket (α : Type) where
  hhHead : List (UtHashHandle α)
  count : ℕ
  expandMult : ℕ

structure UtHashTable (α : Type) where
  buckets : List (UtHashBucket α)
  numBuckets : ℕ
  log2NumBuckets : ℕ
  numItems : ℕ
  appOrder : List (UtHashHandle α)
  idealChainMaxlen : ℕ
  nonidealItems : ℕ
  ineffExpands : ℕ
  noexpand : Bool

variable {α : Type}

/-- A bucket out of `uthash_bzero`. -/
def UtHashBucket.zero : UtHashBucket α := ⟨[], 0, 0⟩

/-- `HASH_TO_BKT`. -/
def hashToBkt (hashv : UInt32) (numBkts : ℕ) : ℕ := hashv.toNat &&& (numBkts - 1)

def hashInitialNumBuckets : ℕ := 32

def hashInitialNumBucketsLog2 : ℕ := 5

def hashBktCapacityThresh : ℕ := 10

/-- A handle on its way into the buckets of the doubled table. -/
def UtHashBucket.receive (bkt : UtHashBucket α) (idealChainMaxlen : ℕ)
    (thh : UtHashHandle α) : UtHashBucket α where
  hhHead := thh :: bkt.hhHead
  count := bkt.count + 1
  expandMult :=
    if bkt.count + 1 > idealChainMaxlen then
      if bkt.count + 1 > bkt.expandMult * idealChainMaxlen then bkt.expandMult + 1
      else bkt.expandMult
    else bkt.expandMult

/-- One turn of the inner loop of `HASH_EXPAND_BUCKETS`, on the new buckets and the number of
non-ideal items. -/
def moveHandle (numBkts idealChainMaxlen : ℕ) (moved : List (UtHashBucket α) × ℕ)
    (thh : UtHashHandle α) : List (UtHashBucket α) × ℕ :=
  let newbkt := moved.1.getD (hashToBkt thh.hashv numBkts) .zero
  (moved.1.modify (hashToBkt thh.hashv numBkts) (·.receive idealChainMaxlen thh),
    if newbkt.count + 1 > idealChainMaxlen then moved.2 + 1 else moved.2)

/-- The chain length that equally used buckets would have. -/
def idealChainLength (tbl : UtHashTable α) : ℕ :=
  (tbl.numItems >>> (tbl.log2NumBuckets + 1)) +
    if tbl.numItems &&& (tbl.numBuckets * 2 - 1) ≠ 0 then 1 else 0

/-- The loops of `HASH_EXPAND_BUCKETS` over the buckets and along each chain. -/
def moveHandles (tbl : UtHashTable α) : List (UtHashBucket α) × ℕ :=
  tbl.buckets.foldl
    (fun moved bkt ↦
      bkt.hhHead.foldl (moveHandle (tbl.numBuckets * 2) (idealChainLength tbl)) moved)
    (List.replicate (tbl.numBuckets * 2) .zero, 0)

def hashExpandBuckets (tbl : UtHashTable α) : UtHashTable α :=
  let nonidealItems := (moveHandles tbl).2
  let ineffExpands := if nonidealItems > tbl.numItems >>> 1 then tbl.ineffExpands + 1 else 0
  { tbl with
    buckets := (moveHandles tbl).1
    numBuckets := tbl.numBuckets * 2
    log2NumBuckets := tbl.log2NumBuckets + 1
    idealChainMaxlen := idealChainLength tbl
    nonidealItems := nonidealItems
    ineffExpands := ineffExpands
    noexpand := tbl.noexpand || decide (ineffExpands > 1) }

/-- An item that comes into the table, at the head of its chain. -/
def UtHashBucket.push (bkt : UtHashBucket α) (addhh : UtHashHandle α) : UtHashBucket α :=
  { bkt with hhHead := addhh :: bkt.hhHead, count := bkt.count + 1 }

/-- `HASH_ADD_TO_BKT`. -/
def hashAddToBkt (tbl : UtHashTable α) (bkt : ℕ) (addhh : UtHashHandle α) : UtHashTable α :=
  let head := (tbl.buckets.getD bkt .zero).push addhh
  let added := { tbl with buckets := tbl.buckets.modify bkt (·.push addhh) }
  if head.count ≥ (head.expandMult + 1) * hashBktCapacityThresh ∧ tbl.noexpand = false then
    hashExpandBuckets added
  else added

/-- `HASH_ADD_TO_TABLE`. -/
def hashAddToTable (tbl : UtHashTable α) (add : UtHashHandle α) : UtHashTable α :=
  hashAddToBkt { tbl with numItems := tbl.numItems + 1 } (hashToBkt add.hashv tbl.numBuckets) add

/-- `HASH_MAKE_TABLE`. -/
def hashMakeTable (head : UtHashHandle α) : UtHashTable α where
  buckets := List.replicate hashInitialNumBuckets .zero
  numBuckets := hashInitialNumBuckets
  log2NumBuckets := hashInitialNumBucketsLog2
  numItems := 0
  appOrder := [head]
  idealChainMaxlen := 0
  nonidealItems := 0
  ineffExpands := 0
  noexpand := false

/-- `HASH_APPEND_LIST`. -/
def hashAppendList (tbl : UtHashTable α) (add : UtHashHandle α) : UtHashTable α :=
  { tbl with appOrder := tbl.appOrder ++ [add] }

/-- `HASH_FIND_IN_BKT`. -/
def hashFindInBkt (head : UtHashBucket α) (key : List UInt8) (hashval : UInt32) : Option α :=
  (head.hhHead.find? fun hh ↦
    hh.hashv == hashval && hh.key.length == key.length &&
      hh.key.take key.length == key.take key.length).map UtHashHandle.element

section

variable (hashFunction : List UInt8 → UInt32)

/-- `HASH_ADD_STR`; `head` is NULL before the first element comes. -/
def hashAddStr (head : Option (UtHashTable α)) (strfield : List UInt8) (add : α) :
    UtHashTable α :=
  let handle := ⟨add, strfield, hashFunction strfield⟩
  match head with
  | none => hashAddToTable (hashMakeTable handle) handle
  | some tbl => hashAddToTable (hashAppendList tbl handle) handle

/-- `HASH_FIND_STR`. -/
def hashFindStr (head : Option (UtHashTable α)) (findstr : List UInt8) : Option α :=
  match head with
  | none => none
  | some tbl =>
      hashFindInBkt (tbl.buckets.getD (hashToBkt (hashFunction findstr) tbl.numBuckets) .zero)
        findstr (hashFunction findstr)

end

end HttpProxy
