import TmULThreads.Lib.LinkedChain
import TmULThreads.Mem.Pool

/-!
# Hash tables

The tables of `cmn/hashlib.c`.  A table is an array of buckets, each of which leads to a chain
of entries.  The entries are in blocks of one memory pool, which all buckets share.

What `create_hash_table` sets for good is in `HashTable`; what the functions write is in
`Store`: the array, the counter, the memory of the entries, and the pools.  A function returns
`none` where the source has no defined outcome: an index outside of the array, an access
through `NULL`, or a loop that does not end.

An entry is three words from the address of its block on, each at its own address.  The pool
decides how far the blocks are apart, so the words of two entries can be the same: nothing in
the source compares the size of a block with that of an entry.  A write behind the last block
of a pool is taken to hit memory that nobody else uses.

Sizes are those of an LP64 machine, where a pointer has eight bytes.  `alloc_block` is not
declared in this file; the pointer that it returns is taken unchanged.
-/

namespace TmULThreads
namespace Hash

open LinkedChain

/-- The bytes that a `char *` leads to. -/
abbrev Key := Nat → UInt8

/-- `sizeof (hash_bucket_t *)`. -/
def sizeofPtr : Nat := 8

/-- `sizeof (hash_bucket_t)`: the fields `next`, `key` and `data`. -/
def sizeofHashBucket : Nat := 3 * sizeofPtr

/-- The offset of the field `key`; that of `next` is zero. -/
def keyOff : Nat := sizeofPtr

/-- The offset of the field `data`. -/
def dataOff : Nat := 2 * sizeofPtr

/-- `HASH_TABLE`, the fields that do not change. -/
structure HashTable where
  hmemPoolId : Nat
  keyLen : Nat
  nbuckets : Nat
  cmpFunc : Key → Key → Int
  hashIndexGen : Key → Int

structure Store where
  bucketArray : Nat → Nat
  nentries : Int
  /-- The words of the entries by their addresses; the address `0` is `NULL`. -/
  word : Nat → Nat
  /-- The copies of keys by the pointers to them. -/
  keyCopy : Nat → Key
  /-- The pointer to the next copy.  The allocator gives no pointer twice. -/
  nextCopy : Nat
  mem : Mem.MemState

/-- The links of all entries. -/
def Store.next (s : Store) (a : Nat) : Nat := s.word a

/-- The bytes behind the `key` of an entry. -/
def Store.key (s : Store) (a : Nat) : Key := s.keyCopy (s.word (a + keyOff))

def Store.data (s : Store) (a : Nat) : Nat := s.word (a + dataOff)

def Store.write (s : Store) (a v : Nat) : Store := { s with word := Function.update s.word a v }

/-! ## New tables -/

/-- `DEFAULT_HASH_BUCKETS`. -/
def defaultHashBuckets : Nat := 52

/-- `create_hash_table`, with the `HASH_TABLE` or `NULL`.  `tblOk` and `arrayOk` say whether the
table and the array of buckets can be allocated, and the other outcomes are those of
`mem_pool_create`.  Without the array the function frees the table and still returns it, which
is of no use to anyone.  The array is not cleared. -/
def createHashTable (m : Mem.MemState) (buckets : Nat) (cmp : Key → Key → Int)
    (indexGen : Key → Int) (keyLen : Nat) (tblOk mcbOk : Bool) (area : Nat)
    (tableOk arrayOk : Bool) : Option (Mem.MemState × Option HashTable) :=
  let buckets := if buckets = 0 then defaultHashBuckets else buckets
  -- the product is kept in an `int`, and `mem_pool_create` takes it as a `size_t`
  let size := Mem.toInt (sizeofPtr * buckets)
  if ¬ tblOk then some (m, none)
  else
    match Mem.memPoolCreate m (Mem.toSizeT size) buckets mcbOk area tableOk with
    | (m, none) => some (m, none)
    | (m, some memid) =>
        if arrayOk then some (m, some ⟨memid, keyLen, buckets, cmp, indexGen⟩) else none

variable (htbl : HashTable) (fuel : Nat)

/-- The place of an index in the array. -/
def HashTable.bucket (which : Int) : Option Nat :=
  if 0 ≤ which ∧ which < htbl.nbuckets then some which.toNat else none

/-- The test of the loops that look for a key. -/
def Store.hasKey (s : Store) (key : Key) (a : Nat) : Bool :=
  htbl.cmpFunc (s.key a) key = 0

/-- A write to the link behind the entry `prev`, or to the bucket if there is none. -/
def Store.link (s : Store) (b prev ptr : Nat) : Store :=
  if prev ≠ 0 then s.write prev ptr
  else { s with bucketArray := Function.update s.bucketArray b ptr }

/-! ## Single entries -/

def findHashEntry (s : Store) (key : Key) : Option Nat :=
  let whichBucket := htbl.hashIndexGen key
  if whichBucket > htbl.nbuckets then some 0
  else do
    let b ← htbl.bucket whichBucket
    let (_, bkt) ← search s.next (s.hasKey htbl key) fuel 0 (s.bucketArray b)
    some bkt

def hashTblLookup (s : Store) (key : Key) : Option Nat := do
  let pbkt ← findHashEntry htbl fuel s key
  if pbkt = 0 then some 0 else some (s.data pbkt)

/-- `hash_delete_entry`.  What `free_data` does is up to the caller, and the result of
`free_blk` is not looked at. -/
def hashDeleteEntry (s : Store) (string : Key) : Option (Store × Int) :=
  let theBucket := htbl.hashIndexGen string
  if theBucket > htbl.nbuckets then some (s, -1)
  else do
    let b ← htbl.bucket theBucket
    let (prev, temp) ← search s.next (s.hasKey htbl string) fuel 0 (s.bucketArray b)
    if temp = 0 then some (s, -1)
    else
      let s := s.link b prev (s.next temp)
      let (mem, _) ← Mem.freeBlk s.mem htbl.hmemPoolId temp
      some ({ s with nentries := s.nentries - 1, mem := mem }, 0)

/-- The copy of a key that an entry gets. -/
def copyKey (key : Key) : Key := fun i => if i < htbl.keyLen then key i else 0

/-- The fields of a new entry, in the order in which they are written, with a copy of the
key. -/
def Store.fill (s : Store) (hentry : Nat) (string : Key) (data : Nat) : Store :=
  let s := s.write (hentry + dataOff) data
  let s := s.write hentry 0
  let s := s.write (hentry + keyOff) s.nextCopy
  { s with keyCopy := Function.update s.keyCopy s.nextCopy (copyKey htbl string)
           nextCopy := s.nextCopy + 1 }

/-- `hash_add_entry`.  `keyOk` says whether the memory for the copy of the key could be
allocated: the source does not ask, and writes the first byte through `NULL`.  The link at
the end of the chain is written with whatever `alloc_block` returns. -/
def hashAddEntry (s : Store) (string : Key) (data : Nat) (keyOk : Bool) :
    Option (Store × Int) := do
  let hentry ← findHashEntry htbl fuel s string
  if hentry ≠ 0 then some (s, 0)
  else
    let bucket := htbl.hashIndexGen string
    if bucket > htbl.nbuckets then some (s, -1)
    else
      let b ← htbl.bucket bucket
      let (_, last) ← search s.next (fun a => s.next a = 0) fuel 0 (s.bucketArray b)
      let (mem, hentry) ← Mem.allocBlock s.mem htbl.hmemPoolId
      let s := { s.link b last hentry with mem := mem }
      if hentry = 0 then some (s, -1)
      else if keyOk ∨ htbl.keyLen = 0 then
        let s := s.fill htbl hentry string data
        some ({ s with nentries := s.nentries + 1 }, 0)
      else none

/-- What `hash_tbl_add` and `hash_tbl_delete` make of the result. -/
def status (r : Store × Int) : Store × Int := (r.1, if r.2 < 0 then -1 else 0)

def hashTblAdd (s : Store) (key : Key) (data : Nat) (keyOk : Bool) : Option (Store × Int) :=
  (hashAddEntry htbl fuel s key data keyOk).map status

def hashTblDelete (s : Store) (string : Key) : Option (Store × Int) :=
  (hashDeleteEntry htbl fuel s string).map status

/-! ## Whole tables -/

/-- The inner loop of `flush_hash_table`. -/
def flushChain : Nat → Store → Nat → Option Store
  | 0, _, _ => none
  | fuel + 1, s, bucket =>
      if bucket = 0 then some s
      else do
        let (mem, _) ← Mem.freeBlk s.mem htbl.hmemPoolId bucket
        flushChain fuel { s with mem := mem } (s.next bucket)

/-- One turn of the outer loop. -/
def flushBucket (s : Store) (i : Nat) : Option Store := do
  let s ← flushChain htbl fuel s (s.bucketArray i)
  some { s with bucketArray := Function.update s.bucketArray i 0 }

/-- `flush_hash_table`; it does not touch `nentries`. -/
def flushHashTable (s : Store) : Option Store :=
  (List.range htbl.nbuckets).foldlM (flushBucket htbl fuel) s

/-- The entries that `hash_walk` visits, in the order in which it does; it returns their
number. -/
def hashWalk (s : Store) : Option (List Nat) :=
  ((List.range htbl.nbuckets).mapM fun slot => walk s.next fuel (s.bucketArray slot)).map
    List.flatten

/-! ## Calls -/

inductive HashOp
  | add (key : Key) (data : Nat) (keyOk : Bool)
  | delete (key : Key)
  | lookup (key : Key)
  | flush

/-- What a call returns. -/
inductive HashRet
  | status (code : Int)
  | data (ptr : Nat)
  | done
  deriving DecidableEq, Repr

def hashCall (s : Store) : HashOp → Option (Store × HashRet)
  | .add key data keyOk =>
      (hashTblAdd htbl fuel s key data keyOk).map fun r => (r.1, .status r.2)
  | .delete key => (hashTblDelete htbl fuel s key).map fun r => (r.1, .status r.2)
  | .lookup key => (hashTblLookup htbl fuel s key).map fun ptr => (s, .data ptr)
  | .flush => (flushHashTable htbl fuel s).map fun s => (s, .done)

/-- A sequence of calls, with all that they return. -/
def hashCalls : Store → List HashOp → Option (Store × List HashRet)
  | s, [] => some (s, [])
  | s, op :: ops => do
      let (s, ret) ← hashCall htbl fuel s op
      let (s, rets) ← hashCalls s ops
      some (s, ret :: rets)

end Hash
end TmULThreads
