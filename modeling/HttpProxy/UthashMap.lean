import HttpProxy.Uthash
import Mathlib.Algebra.Ring.Nat
import Mathlib.Data.List.Nodup

/-!
# uthash is a map

Whatever the hash function, the chains of a uthash table hold the elements that were added, each
once and in the chain of its hash value, through every expansion of the buckets.  So
`HASH_FIND_STR` finds what a search in the list of added elements would find.
-/

namespace HttpProxy

open ChainedHash

variable {α : Type} {hashFunction : List UInt8 → UInt32} {tbl : UtHashTable α}
  {buckets : List (UtHashBucket α)} {bkt : UtHashBucket α} {thh : UtHashHandle α}
  {items : List (UtHashHandle α)} {ideal n : ℕ} {moved : List (UtHashBucket α) × ℕ}

def chainsOf (buckets : List (UtHashBucket α)) : List (List (UtHashHandle α)) :=
  buckets.map UtHashBucket.hhHead

/-- The bucket of a handle in a table of this size. -/
def bucketIndex (numBuckets : ℕ) (hh : UtHashHandle α) : ℕ := hashToBkt hh.hashv numBuckets

@[simp] theorem length_chainsOf (buckets : List (UtHashBucket α)) :
    (chainsOf buckets).length = buckets.length :=
  List.length_map ..

theorem hashToBkt_lt (hashv : UInt32) {numBuckets log2 : ℕ} (h : numBuckets = 2 ^ log2) :
    hashToBkt hashv numBuckets < numBuckets := by
  rw [hashToBkt, h, Nat.and_two_pow_sub_one_eq_mod]
  exact Nat.mod_lt _ (Nat.two_pow_pos log2)

/-- A bucket counts the handles in its chain. -/
def Counted (buckets : List (UtHashBucket α)) : Prop :=
  ∀ bkt ∈ buckets, bkt.count = bkt.hhHead.length

/-- Whatever puts a handle at the head of a chain and counts it. -/
structure Adds (f : UtHashBucket α → UtHashBucket α) (hh : UtHashHandle α) : Prop where
  hhHead : ∀ bkt, (f bkt).hhHead = hh :: bkt.hhHead
  count : ∀ bkt, (f bkt).count = bkt.count + 1

theorem adds_push (hh : UtHashHandle α) : Adds (·.push hh) hh := ⟨fun _ ↦ rfl, fun _ ↦ rfl⟩

theorem adds_receive (ideal : ℕ) (hh : UtHashHandle α) : Adds (·.receive ideal hh) hh :=
  ⟨fun _ ↦ rfl, fun _ ↦ rfl⟩

theorem Adds.chainsOf_modify {f : UtHashBucket α → UtHashBucket α} (hf : Adds f thh) (n : ℕ)
    (buckets : List (UtHashBucket α)) :
    chainsOf (buckets.modify (hashToBkt thh.hashv n) f) =
      place (bucketIndex n) (chainsOf buckets) thh := by
  apply List.ext_getElem? fun i ↦ ?_
  rw [place, chainsOf, chainsOf, bucketIndex, List.getElem?_map, List.getElem?_modify,
    List.getElem?_modify, List.getElem?_map]
  cases buckets[i]? with
  | none => rfl
  | some bkt =>
      by_cases hi : hashToBkt thh.hashv n = i
      · simp [hi, hf.hhHead]
      · simp [hi]

theorem Adds.counted_modify {f : UtHashBucket α → UtHashBucket α} (hf : Adds f thh)
    (h : Counted buckets) (i : ℕ) : Counted (buckets.modify i f) := by
  intro bkt hbkt
  obtain ⟨j, hj⟩ := List.mem_iff_getElem?.mp hbkt
  rw [List.getElem?_modify] at hj
  obtain ⟨old, hold, rfl⟩ := Option.map_eq_some_iff.mp hj
  have hcount := h old (List.mem_of_getElem? hold)
  split
  · rw [hf.count, hf.hhHead, hcount, List.length_cons]
  · exact hcount

/-! ## Expanding the buckets -/

theorem counted_foldl_moveHandle (h : Counted moved.1) (items : List (UtHashHandle α)) :
    Counted (items.foldl (moveHandle n ideal) moved).1 := by
  induction items generalizing moved with
  | nil => exact h
  | cons thh items ih => exact ih ((adds_receive ideal thh).counted_modify h _)

/-- Each item is moved once, in the order of the old chains. -/
theorem moveHandles_eq (tbl : UtHashTable α) :
    moveHandles tbl = (chainsOf tbl.buckets).flatten.foldl
      (moveHandle (tbl.numBuckets * 2) (idealChainLength tbl))
      (List.replicate (tbl.numBuckets * 2) .zero, 0) := by
  rw [List.foldl_flatten, chainsOf, List.foldl_map]
  rfl

theorem foldl_moveHandle_chains (n ideal : ℕ) (items : List (UtHashHandle α))
    (moved : List (UtHashBucket α) × ℕ) :
    chainsOf (items.foldl (moveHandle n ideal) moved).1 =
      items.foldl (place (bucketIndex n)) (chainsOf moved.1) := by
  induction items generalizing moved with
  | nil => rfl
  | cons thh items ih =>
      rw [List.foldl_cons, List.foldl_cons, ih, moveHandle,
        (adds_receive ideal thh).chainsOf_modify]

/-- What the expansion keeps up while it moves the items: `nonidealItems` counts those whose
position in their chain exceeds the ideal length, and `expandMult` grows with the chain. -/
structure Moved (ideal : ℕ) (moved : List (UtHashBucket α) × ℕ) : Prop where
  counted : Counted moved.1
  nonideal : moved.2 = (moved.1.map fun bkt ↦ bkt.count - ideal).sum
  bounded : ∀ bkt ∈ moved.1, bkt.count ≤ (bkt.expandMult + 1) * ideal

theorem moved_zero (n ideal : ℕ) : Moved ideal (List.replicate n (.zero : UtHashBucket α), 0) := by
  refine ⟨?_, ?_, ?_⟩
  · intro bkt hbkt
    rw [List.eq_of_mem_replicate hbkt]
    rfl
  · simp [UtHashBucket.zero]
  · intro bkt hbkt
    rw [List.eq_of_mem_replicate hbkt]
    exact Nat.zero_le _

/-- A sum over a list of which one entry is replaced. -/
theorem sum_map_modify {l : List (UtHashBucket α)} {i : ℕ} (hi : i < l.length)
    (f : UtHashBucket α → UtHashBucket α) (g : UtHashBucket α → ℕ) :
    ((l.modify i f).map g).sum + g (l.getD i .zero) =
      (l.map g).sum + g (f (l.getD i .zero)) := by
  induction l generalizing i with
  | nil => simp at hi
  | cons b l ih =>
      cases i with
      | zero =>
          simp only [List.modify_zero_cons, List.map_cons, List.sum_cons, List.getD_cons_zero]
          omega
      | succ i =>
          have h := ih (i := i) (by simpa using hi)
          simp only [List.modify_succ_cons, List.map_cons, List.sum_cons, List.getD_cons_succ]
          omega

theorem receive_bounded (hideal : 1 ≤ ideal) (thh : UtHashHandle α)
    (h : bkt.count ≤ (bkt.expandMult + 1) * ideal) :
    (bkt.receive ideal thh).count ≤ ((bkt.receive ideal thh).expandMult + 1) * ideal := by
  simp only [UtHashBucket.receive]
  split
  next hlong =>
    split
    next hgrow =>
      -- one more multiple of the ideal length makes room for one more item
      rw [Nat.add_mul (bkt.expandMult + 1) 1 ideal]
      omega
    next hgrow =>
      rw [Nat.add_mul]
      omega
  next hshort =>
    rw [Nat.add_mul]
    omega

theorem Moved.moveHandle (hideal : 1 ≤ ideal) (h : Moved ideal moved)
    (hi : bucketIndex n thh < moved.1.length) :
    Moved ideal (HttpProxy.moveHandle n ideal moved thh) := by
  refine ⟨(adds_receive ideal thh).counted_modify h.counted _, ?_, ?_⟩
  · have hsum := sum_map_modify hi (·.receive ideal thh) fun bkt ↦ bkt.count - ideal
    have hnonideal := h.nonideal
    simp only [HttpProxy.moveHandle, bucketIndex, UtHashBucket.receive] at hsum hi ⊢
    split <;> omega
  · intro bkt hbkt
    obtain ⟨j, hj⟩ := List.mem_iff_getElem?.mp hbkt
    rw [HttpProxy.moveHandle, List.getElem?_modify] at hj
    obtain ⟨old, hold, rfl⟩ := Option.map_eq_some_iff.mp hj
    have hbound := h.bounded old (List.mem_of_getElem? hold)
    split
    · exact receive_bounded hideal thh hbound
    · exact hbound

theorem Moved.foldl (hideal : 1 ≤ ideal) (h : Moved ideal moved)
    (hi : ∀ thh ∈ items, bucketIndex n thh < moved.1.length) :
    Moved ideal (items.foldl (HttpProxy.moveHandle n ideal) moved) := by
  induction items generalizing moved with
  | nil => exact h
  | cons thh items ih =>
      rw [List.forall_mem_cons] at hi
      apply ih (h.moveHandle hideal hi.1)
      simpa [HttpProxy.moveHandle] using hi.2

/-! ## Well-formed tables -/

/-- What `HASH_FSCK` checks of buckets that hold these items, and that each item lies in the
bucket of its hash value. -/
structure BucketsHold (numBuckets : ℕ) (buckets : List (UtHashBucket α))
    (items : List (UtHashHandle α)) : Prop where
  length : buckets.length = numBuckets
  placed : Placed (bucketIndex numBuckets) (chainsOf buckets)
  counted : Counted buckets
  items : (chainsOf buckets).flatten.Perm items

/-- The table with its items in application order. -/
structure UtHashTable.WellFormed (hashFunction : List UInt8 → UInt32) (tbl : UtHashTable α) :
    Prop where
  power : tbl.numBuckets = 2 ^ tbl.log2NumBuckets
  holds : BucketsHold tbl.numBuckets tbl.buckets tbl.appOrder
  numItems : tbl.numItems = tbl.appOrder.length
  hashed : ∀ hh ∈ tbl.appOrder, hh.hashv = hashFunction hh.key

theorem bucketsHold_zero (n : ℕ) :
    BucketsHold n (List.replicate n (.zero : UtHashBucket α)) [] := by
  have hchains : chainsOf (List.replicate n (.zero : UtHashBucket α)) = List.replicate n [] :=
    List.map_replicate
  refine ⟨List.length_replicate, ?_, (moved_zero n 0).counted, ?_⟩
  · rw [hchains]
    exact placed_replicate _ n
  · rw [hchains, List.flatten_replicate_nil]

theorem BucketsHold.add {f : UtHashBucket α → UtHashBucket α} (h : BucketsHold n buckets items)
    (hf : Adds f thh) (hi : bucketIndex n thh < n) :
    BucketsHold n (buckets.modify (hashToBkt thh.hashv n) f) (thh :: items) := by
  refine ⟨by rw [List.length_modify, h.length], ?_, hf.counted_modify h.counted _, ?_⟩
  · rw [hf.chainsOf_modify]
    exact h.placed.place thh
  · rw [hf.chainsOf_modify]
    have hlt : bucketIndex n thh < (chainsOf buckets).length := by
      rwa [length_chainsOf, h.length]
    exact (flatten_place_perm hlt).trans (h.items.cons thh)

/-- The buckets after the expansion hold what they held before. -/
theorem bucketsHold_moveHandles {log2 : ℕ} (hpower : tbl.numBuckets = 2 ^ log2)
    (h : BucketsHold tbl.numBuckets tbl.buckets items) :
    BucketsHold (tbl.numBuckets * 2) (moveHandles tbl).1 items := by
  have hzero := bucketsHold_zero (α := α) (tbl.numBuckets * 2)
  have hpower' : tbl.numBuckets * 2 = 2 ^ (log2 + 1) := by rw [hpower, Nat.pow_succ]
  have hchains := foldl_moveHandle_chains (tbl.numBuckets * 2) (idealChainLength tbl)
    (chainsOf tbl.buckets).flatten (List.replicate (tbl.numBuckets * 2) .zero, 0)
  rw [← moveHandles_eq] at hchains
  have hindex : ∀ hh ∈ (chainsOf tbl.buckets).flatten, bucketIndex (tbl.numBuckets * 2) hh <
      (chainsOf (List.replicate (tbl.numBuckets * 2) (.zero : UtHashBucket α))).length := by
    intro hh _
    rw [length_chainsOf, List.length_replicate]
    exact hashToBkt_lt hh.hashv hpower'
  refine ⟨?_, ?_, ?_, ?_⟩
  · rw [← length_chainsOf, hchains, length_foldl_place, length_chainsOf, List.length_replicate]
  · rw [hchains]
    exact hzero.placed.foldl _
  · rw [moveHandles_eq]
    exact counted_foldl_moveHandle hzero.counted _
  · rw [hchains]
    refine (flatten_foldl_perm hindex).trans ?_
    rw [List.perm_nil.mp hzero.items, List.append_nil]
    exact h.items

theorem UtHashTable.WellFormed.expand (h : tbl.WellFormed hashFunction) :
    (hashExpandBuckets tbl).WellFormed hashFunction where
  power := by
    simp only [hashExpandBuckets, h.power, Nat.pow_succ]
  holds := bucketsHold_moveHandles h.power h.holds
  numItems := h.numItems
  hashed := h.hashed

/-- A handle in the application order whose bucket does not hold it yet. -/
structure UtHashTable.Awaits (hashFunction : List UInt8 → UInt32) (tbl : UtHashTable α)
    (add : UtHashHandle α) (items : List (UtHashHandle α)) : Prop where
  power : tbl.numBuckets = 2 ^ tbl.log2NumBuckets
  holds : BucketsHold tbl.numBuckets tbl.buckets items
  numItems : tbl.numItems = items.length
  appOrder : tbl.appOrder = items ++ [add]
  hashed : ∀ hh ∈ tbl.appOrder, hh.hashv = hashFunction hh.key

theorem UtHashTable.Awaits.addToTable {add : UtHashHandle α}
    (h : tbl.Awaits hashFunction add items) :
    (hashAddToTable tbl add).WellFormed hashFunction := by
  have hadded : BucketsHold tbl.numBuckets
      (tbl.buckets.modify (hashToBkt add.hashv tbl.numBuckets) (·.push add)) (add :: items) :=
    h.holds.add (adds_push add) (hashToBkt_lt add.hashv h.power)
  have hperm : (add :: items).Perm tbl.appOrder := by
    rw [h.appOrder]
    exact (List.perm_append_singleton add items).symm
  have hwell : UtHashTable.WellFormed hashFunction
      { tbl with
        numItems := tbl.numItems + 1
        buckets := tbl.buckets.modify (hashToBkt add.hashv tbl.numBuckets) (·.push add) } :=
    ⟨h.power, ⟨hadded.length, hadded.placed, hadded.counted, hadded.items.trans hperm⟩,
      by simp [h.numItems, h.appOrder], h.hashed⟩
  simp only [hashAddToTable, hashAddToBkt]
  split
  · exact hwell.expand
  · exact hwell

/-! ## Adding and finding -/

/-- The items of the table that `head` points to. -/
def hashItems (head : Option (UtHashTable α)) : List (UtHashHandle α) :=
  match head with
  | none => []
  | some tbl => tbl.appOrder

/-- The keys and elements a table holds. -/
def hashEntries (head : Option (UtHashTable α)) : List (List UInt8 × α) :=
  (hashItems head).map fun hh ↦ (hh.key, hh.element)

def HeadWellFormed (hashFunction : List UInt8 → UInt32) (head : Option (UtHashTable α)) : Prop :=
  ∀ tbl, head = some tbl → tbl.WellFormed hashFunction

theorem headWellFormed_none : HeadWellFormed hashFunction (none : Option (UtHashTable α)) :=
  nofun

variable {head : Option (UtHashTable α)} {key : List UInt8}

@[simp] theorem hashAddToTable_appOrder (tbl : UtHashTable α) (add : UtHashHandle α) :
    (hashAddToTable tbl add).appOrder = tbl.appOrder := by
  simp only [hashAddToTable, hashAddToBkt]
  split <;> rfl

theorem hashItems_hashAddStr (head : Option (UtHashTable α)) (key : List UInt8) (add : α) :
    hashItems (some (hashAddStr hashFunction head key add)) =
      hashItems head ++ [⟨add, key, hashFunction key⟩] := by
  cases head with
  | none => exact hashAddToTable_appOrder _ _
  | some tbl => exact hashAddToTable_appOrder _ _

@[simp] theorem hashEntries_hashAddStr (head : Option (UtHashTable α)) (key : List UInt8)
    (add : α) :
    hashEntries (some (hashAddStr hashFunction head key add)) =
      hashEntries head ++ [(key, add)] := by
  rw [hashEntries, hashItems_hashAddStr, List.map_append]
  rfl

theorem HeadWellFormed.addStr (h : HeadWellFormed hashFunction head) (key : List UInt8) (add : α) :
    HeadWellFormed hashFunction (some (hashAddStr hashFunction head key add)) := by
  intro tbl htbl
  obtain rfl := Option.some.inj htbl
  cases head with
  | none =>
      exact UtHashTable.Awaits.addToTable (show UtHashTable.Awaits _ _ _ [] from
        ⟨rfl, bucketsHold_zero _, rfl, rfl, by simp [hashMakeTable]⟩)
  | some tbl =>
      obtain ⟨hpower, hholds, hnumItems, hhashed⟩ := h tbl rfl
      refine UtHashTable.Awaits.addToTable (show UtHashTable.Awaits _ _ _ tbl.appOrder from
        ⟨hpower, hholds, hnumItems, rfl, ?_⟩)
      intro hh hmem
      rcases List.mem_append.mp hmem with hold | hnew
      · exact hhashed hh hold
      · obtain rfl := List.mem_singleton.mp hnew
        rfl

/-- The comparison along a chain: equal hash values, equal lengths, equal bytes. -/
theorem hashMatch_iff {hashval : UInt32} :
    (thh.hashv == hashval && thh.key.length == key.length &&
        thh.key.take key.length == key.take key.length) = true ↔
      thh.hashv = hashval ∧ thh.key = key := by
  simp only [Bool.and_eq_true, beq_iff_eq, List.take_length, and_assoc]
  refine and_congr_right fun _ ↦ ⟨?_, ?_⟩
  · rintro ⟨hlength, hbytes⟩
    rwa [← hlength, List.take_length] at hbytes
  · rintro rfl
    simp

theorem bucketAt_hhHead (buckets : List (UtHashBucket α)) (i : ℕ) :
    (buckets.getD i .zero).hhHead = chainAt (chainsOf buckets) i := by
  rw [chainAt, chainsOf, List.getElem?_map, List.getD_eq_getElem?_getD]
  cases buckets[i]? <;> rfl

/-- Nothing is found if and only if no item has the key. -/
theorem hashFindStr_eq_none_iff (h : HeadWellFormed hashFunction head) :
    hashFindStr hashFunction head key = none ↔ ∀ hh ∈ hashItems head, hh.key ≠ key := by
  cases head with
  | none => simp [hashFindStr, hashItems]
  | some tbl =>
      obtain ⟨-, hholds, -, hhashed⟩ := h tbl rfl
      rw [hashFindStr, hashFindInBkt, Option.map_eq_none_iff, bucketAt_hhHead,
        hholds.placed.find?_eq_none_iff]
      · rw [hashItems]
        refine ⟨fun hnone hh hmem hkey ↦ ?_, fun hnone hh hmem ↦ ?_⟩
        · have hmiss := hnone hh (hholds.items.mem_iff.mpr hmem)
          rw [hashMatch_iff.mpr ⟨hkey ▸ hhashed hh hmem, hkey⟩] at hmiss
          simp at hmiss
        · rw [Bool.eq_false_iff, Ne, hashMatch_iff]
          exact fun hmatch ↦ hnone hh (hholds.items.mem_iff.mp hmem) hmatch.2
      · intro hh hmatch
        rw [bucketIndex, (hashMatch_iff.mp hmatch).1]

theorem of_hashFindStr_eq_some {e : α} (h : HeadWellFormed hashFunction head)
    (hfound : hashFindStr hashFunction head key = some e) :
    ∃ hh ∈ hashItems head, hh.key = key ∧ hh.element = e := by
  cases head with
  | none => simp [hashFindStr] at hfound
  | some tbl =>
      obtain ⟨-, hholds, -, -⟩ := h tbl rfl
      rw [hashFindStr, hashFindInBkt, Option.map_eq_some_iff] at hfound
      obtain ⟨hh, hfind, rfl⟩ := hfound
      rw [bucketAt_hhHead] at hfind
      obtain ⟨hmem, hmatch⟩ := hholds.placed.of_find?_eq_some (fun hh hmatch ↦ by
        rw [bucketIndex, (hashMatch_iff.mp hmatch).1]) hfind
      exact ⟨hh, hholds.items.mem_iff.mp hmem, (hashMatch_iff.mp hmatch).2, rfl⟩

/-! ## Runs of additions -/

/-- `HASH_ADD_STR` for one element after the other, from a NULL head. -/
def hashAddAll (hashFunction : List UInt8 → UInt32) (adds : List (List UInt8 × α)) :
    Option (UtHashTable α) :=
  adds.foldl (fun head add ↦ some (hashAddStr hashFunction head add.1 add.2)) none

theorem foldl_hashAddStr {adds : List (List UInt8 × α)} (h : HeadWellFormed hashFunction head) :
    HeadWellFormed hashFunction
        (adds.foldl (fun head add ↦ some (hashAddStr hashFunction head add.1 add.2)) head) ∧
      hashEntries
          (adds.foldl (fun head add ↦ some (hashAddStr hashFunction head add.1 add.2)) head) =
        hashEntries head ++ adds := by
  induction adds generalizing head with
  | nil => exact ⟨h, (List.append_nil _).symm⟩
  | cons add adds ih =>
      obtain ⟨hwell, hentries⟩ := ih (h.addStr add.1 add.2)
      refine ⟨hwell, hentries.trans ?_⟩
      rw [hashEntries_hashAddStr, List.append_assoc, List.singleton_append]

theorem hashAddAll_wellFormed (hashFunction : List UInt8 → UInt32)
    (adds : List (List UInt8 × α)) : HeadWellFormed hashFunction (hashAddAll hashFunction adds) :=
  (foldl_hashAddStr headWellFormed_none).1

@[simp] theorem hashEntries_hashAddAll (hashFunction : List UInt8 → UInt32)
    (adds : List (List UInt8 × α)) : hashEntries (hashAddAll hashFunction adds) = adds :=
  (foldl_hashAddStr headWellFormed_none).2

/-- The keys are found that are in the list of entries, with an element that has the key. -/
theorem hashFindStr_entries (h : HeadWellFormed hashFunction head) (key : List UInt8) :
    (hashFindStr hashFunction head key = none ↔ key ∉ (hashEntries head).map Prod.fst) ∧
      ∀ e, hashFindStr hashFunction head key = some e → (key, e) ∈ hashEntries head := by
  constructor
  · rw [hashFindStr_eq_none_iff h]
    simp [hashEntries]
  · intro e hfound
    obtain ⟨hh, hmem, rfl, rfl⟩ := of_hashFindStr_eq_some h hfound
    exact List.mem_map.mpr ⟨hh, hmem, rfl⟩

/-- An element whose key no other element has is the one that is found. -/
theorem hashFindStr_of_nodup {e : α} (h : HeadWellFormed hashFunction head)
    (hnodup : ((hashEntries head).map Prod.fst).Nodup) (hmem : (key, e) ∈ hashEntries head) :
    hashFindStr hashFunction head key = some e := by
  obtain ⟨hnone, hsome⟩ := hashFindStr_entries h key
  cases hfind : hashFindStr hashFunction head key with
  | none => exact absurd (List.mem_map.mpr ⟨_, hmem, rfl⟩) (hnone.mp hfind)
  | some e' =>
      have hpair : (key, e') = (key, e) :=
        List.inj_on_of_nodup_map hnodup (hsome e' hfind) hmem rfl
      rw [(Prod.mk.inj hpair).2]

/-- `HASH_FSCK`, which a build with `HASH_DEBUG` runs after each addition. -/
def hashFsck (tbl : UtHashTable α) : Bool :=
  tbl.buckets.all (fun bkt ↦ bkt.count == bkt.hhHead.length) &&
    ((tbl.buckets.map UtHashBucket.count).sum == tbl.numItems &&
      tbl.appOrder.length == tbl.numItems)

theorem UtHashTable.WellFormed.fsck (h : tbl.WellFormed hashFunction) : hashFsck tbl = true := by
  obtain ⟨-, ⟨-, -, hcounted, hitems⟩, hnumItems, -⟩ := h
  have hcounts : tbl.buckets.map UtHashBucket.count = (chainsOf tbl.buckets).map List.length := by
    rw [chainsOf, List.map_map]
    exact List.map_congr_left hcounted
  have htotal : (tbl.buckets.map UtHashBucket.count).sum = tbl.appOrder.length := by
    rw [hcounts, ← List.length_flatten, hitems.length_eq]
  simpa [hashFsck, htotal, hnumItems, Counted] using hcounted

/-- However the elements are spread over the buckets and however often these were expanded, the
table passes its integrity check and finds exactly the keys that were added. -/
theorem hashAddAll_is_map (hashFunction : List UInt8 → UInt32) (adds : List (List UInt8 × α))
    (key : List UInt8) :
    (∀ tbl, hashAddAll hashFunction adds = some tbl → hashFsck tbl = true) ∧
      (hashFindStr hashFunction (hashAddAll hashFunction adds) key = none ↔
        key ∉ adds.map Prod.fst) ∧
      (∀ e, hashFindStr hashFunction (hashAddAll hashFunction adds) key = some e →
        (key, e) ∈ adds) ∧
      ((adds.map Prod.fst).Nodup → ∀ e, (key, e) ∈ adds →
        hashFindStr hashFunction (hashAddAll hashFunction adds) key = some e) := by
  have hwell := hashAddAll_wellFormed hashFunction adds
  obtain ⟨hnone, hsome⟩ := hashFindStr_entries hwell key
  rw [hashEntries_hashAddAll] at hnone hsome
  refine ⟨fun tbl htbl ↦ (hwell tbl htbl).fsck, hnone, hsome, fun hnodup e hmem ↦ ?_⟩
  exact hashFindStr_of_nodup hwell (by rwa [hashEntries_hashAddAll])
    (by rwa [hashEntries_hashAddAll])

/-! ## What an expansion measures -/

theorem UtHashTable.WellFormed.idealChainLength (h : tbl.WellFormed hashFunction) :
    idealChainLength tbl =
      (tbl.numItems + (tbl.numBuckets * 2 - 1)) / (tbl.numBuckets * 2) := by
  have hpower : tbl.numBuckets * 2 = 2 ^ (tbl.log2NumBuckets + 1) := by
    rw [h.power, Nat.pow_succ]
  rw [HttpProxy.idealChainLength, Nat.shiftRight_eq_div_pow, hpower,
    Nat.and_two_pow_sub_one_eq_mod]
  have hpos : 0 < 2 ^ (tbl.log2NumBuckets + 1) := Nat.two_pow_pos _
  generalize 2 ^ (tbl.log2NumBuckets + 1) = m at hpos
  have hdivision := Nat.div_add_mod tbl.numItems m
  have hlt := Nat.mod_lt tbl.numItems hpos
  generalize hq : tbl.numItems / m = q at hdivision ⊢
  generalize hr : tbl.numItems % m = r at hdivision hlt ⊢
  rw [← hdivision]
  by_cases hzero : r = 0
  · subst hzero
    rw [if_neg (by simp), Nat.add_zero, Nat.add_zero, Nat.mul_add_div hpos,
      Nat.div_eq_of_lt (Nat.sub_lt hpos Nat.one_pos)]
    rfl
  · have hround : m * q + r + (m - 1) = m * (q + 1) + (r - 1) := by
      rw [Nat.mul_add_one]
      omega
    rw [if_pos hzero, hround, Nat.mul_add_div hpos, Nat.div_eq_of_lt (by omega), Nat.add_zero]

theorem UtHashTable.WellFormed.moveHandles (h : tbl.WellFormed hashFunction)
    (hitems : 0 < tbl.numItems) :
    Moved (HttpProxy.idealChainLength tbl) (HttpProxy.moveHandles tbl) := by
  have hpower : tbl.numBuckets * 2 = 2 ^ (tbl.log2NumBuckets + 1) := by
    rw [h.power, Nat.pow_succ]
  have hideal : 1 ≤ HttpProxy.idealChainLength tbl := by
    rw [h.idealChainLength]
    exact Nat.div_pos (by omega) (by rw [hpower]; exact Nat.two_pow_pos _)
  rw [moveHandles_eq]
  refine (moved_zero _ _).foldl hideal fun thh _ ↦ ?_
  rw [List.length_replicate]
  exact hashToBkt_lt thh.hashv hpower

/-- An expansion keeps every item, and measures the chains it makes: the ideal length is the
number of items per bucket, rounded up, an item is counted as non-ideal if its place in its chain
is beyond that, and `expandMult` allows for the length of each chain. -/
theorem hashExpandBuckets_measures (h : tbl.WellFormed hashFunction) (hitems : 0 < tbl.numItems) :
    (hashExpandBuckets tbl).WellFormed hashFunction ∧
      (hashExpandBuckets tbl).appOrder = tbl.appOrder ∧
      (hashExpandBuckets tbl).idealChainMaxlen =
        (tbl.numItems + ((hashExpandBuckets tbl).numBuckets - 1)) /
          (hashExpandBuckets tbl).numBuckets ∧
      (hashExpandBuckets tbl).nonidealItems = ((hashExpandBuckets tbl).buckets.map fun bkt ↦
        bkt.hhHead.length - (hashExpandBuckets tbl).idealChainMaxlen).sum ∧
      ∀ bkt ∈ (hashExpandBuckets tbl).buckets,
        bkt.hhHead.length ≤ (bkt.expandMult + 1) * (hashExpandBuckets tbl).idealChainMaxlen := by
  obtain ⟨hcounted, hnonideal, hbounded⟩ := h.moveHandles hitems
  refine ⟨h.expand, rfl, h.idealChainLength, ?_, ?_⟩
  · refine hnonideal.trans (congrArg List.sum (List.map_congr_left fun bkt hbkt ↦ ?_))
    rw [hcounted bkt hbkt]
    rfl
  · intro bkt hbkt
    rw [← hcounted bkt hbkt]
    exact hbounded bkt hbkt

/-- Three names of one bucket still share it when there are 64 buckets. -/
theorem hashExpandBuckets_measures_sharedBucket : ∃ tbl : UtHashTable ℕ,
    hashAddAll hashJen [(text "1", 0), (text "125", 1), (text "161", 2)] = some tbl ∧
      (hashExpandBuckets tbl).nonidealItems = 2 ∧
      ∃ bkt ∈ (hashExpandBuckets tbl).buckets, bkt.hhHead.length = 3 ∧
        bkt.hhHead.length ≤ (bkt.expandMult + 1) * 1 := by
  let tbl : UtHashTable ℕ := hashAddStr hashJen
    (hashAddAll hashJen [(text "1", 0), (text "125", 1)]) (text "161") 2
  have hformed : tbl.WellFormed hashJen :=
    hashAddAll_wellFormed hashJen [(text "1", 0), (text "125", 1), (text "161", 2)] tbl rfl
  obtain ⟨-, -, hideal, hnonideal, hbound⟩ :=
    hashExpandBuckets_measures hformed (by decide +kernel)
  have hlength : (hashExpandBuckets tbl).idealChainMaxlen = 1 := hideal.trans (by decide +kernel)
  rw [hlength] at hbound hnonideal
  obtain ⟨bkt, hbkt, hthree⟩ : ∃ bkt ∈ (hashExpandBuckets tbl).buckets, bkt.hhHead.length = 3 := by
    decide +kernel
  exact ⟨tbl, rfl, hnonideal.trans (by decide +kernel), bkt, hbkt, hthree, hbound bkt hbkt⟩

end HttpProxy
