import DbExp.Foundation.Machine
import DbExp.Mica.Layout
import Mathlib.Logic.Function.Basic

namespace DbExp.Mica
open Function
namespace Store

def itemsPerBucket : Nat := 7

-- Sizes are counted in words of eight bytes, as every size here is a multiple of eight.
structure Config where
  logBuckets : Nat
  numExtra : Nat
  size : Nat
  hash : Key → Nat
  enough : 4 ≤ size
  small : size < 2^37

namespace Config

def numBuckets (c : Config) : Nat := 2^c.logBuckets

def bucketIndex (c : Config) (k : Key) : Nat := calcBucketIndex c.numBuckets (c.hash k)

def tag (c : Config) (k : Key) : Nat := calcTag (c.hash k)

end Config

inductive Ref where
  | main (b : Nat)
  | extra (x : Nat)
  deriving DecidableEq

end Store

open Store

-- The memory of the allocator with the first free chunk of each class, the slots of the
-- buckets, and the links between them. Free extra buckets are linked the same way.
structure Store where
  data : Nat → Nat
  freeHead : Nat → Option Nat
  slots : Ref → Nat → Option Entry
  next : Ref → Option Nat
  freeExtra : Option Nat

namespace Store

def minSize : Nat := 4
def numClasses : Nat := 32

def sizeToClassRoundup (size : Nat) : Nat := if size ≤ minSize+(numClasses-1) then size-minSize else numClasses-1
def sizeToClassRounddown (size : Nat) : Nat := if size < minSize+numClasses then size-minSize else numClasses-1

def tagVec (size : Nat) (occupied : Bool) : Nat := size+(if occupied then 2^63 else 0)
def tagSize (w : Nat) : Nat := w % 2^63
def tagOccupied (w : Nat) : Bool := decide (2^63 ≤ w)

-- Pointers as words: zero is NULL.
def toWord : Option Nat → Nat
  | none => 0
  | some start => start+1

def ofWord (w : Nat) : Option Nat := if w = 0 then none else some (w-1)

section
variable (t : Store)

def store (pos : Nat) (ws : List Nat) : Store := { t with data := Memory.write t.data pos ws }
def setTags (start size : Nat) (occupied : Bool) : Store :=
  (t.store start [tagVec size occupied]).store (start+size-1) [tagVec size occupied]

-- A free chunk has its neighbours in the list of its class behind the first tag.
def prevChunk (start : Nat) : Option Nat := ofWord (t.data (start+1))
def nextChunk (start : Nat) : Option Nat := ofWord (t.data (start+2))
def setPrevChunk (start : Nat) (x : Option Nat) : Store := t.store (start+1) [toWord x]
def setNextChunk (start : Nat) (x : Option Nat) : Store := t.store (start+2) [toWord x]

def insertFreeChunk (start size : Nat) : Store :=
  let cl := sizeToClassRounddown size
  let head := t.freeHead cl
  let t := ((t.setTags start size false).setPrevChunk start none).setNextChunk start head
  let t := match head with
    | none => t
    | some h => t.setPrevChunk h (some start)
  { t with freeHead := update t.freeHead cl (some start) }

def removeFreeChunkFromFreeList (start size : Nat) : Store :=
  let prev := t.prevChunk start
  let next := t.nextChunk start
  let t := match prev with
    | some p => t.setNextChunk p next
    | none => { t with freeHead := update t.freeHead (sizeToClassRounddown size) next }
  match next with
  | none => t
  | some n => t.setPrevChunk n prev

def headChunk (minimum : Nat) : Option Nat :=
  (List.range numClasses).findSome? fun cl => if sizeToClassRoundup minimum ≤ cl then t.freeHead cl else none

end

inductive Allocated (α : Type) where
  | insufficientSpace
  | chunk (a : α)

def removeFreeChunkFromHead (t : Store) (minimum : Nat) : Option (Allocated (Nat × Nat × Store)) :=
  match t.headChunk minimum with
  | none => some .insufficientSpace
  | some start =>
    let size := tagSize (t.data start)
    if size < minimum then none else some (.chunk (start,size,t.removeFreeChunkFromFreeList start size))

variable (c : Config)

section
variable (t : Store)

def coalesceLeft (start size : Nat) : Nat × Nat × Store :=
  if start = 0 || tagOccupied (t.data (start-1)) then (start,size,t)
  else
    let adj := tagSize (t.data (start-1))
    (start-adj,size+adj,t.removeFreeChunkFromFreeList (start-adj) adj)

def coalesceRight (start size : Nat) : Nat × Nat × Store :=
  if start+size = c.size || tagOccupied (t.data (start+size)) then (start,size,t)
  else
    let adj := tagSize (t.data (start+size))
    (start,size+adj,t.removeFreeChunkFromFreeList (start+size) adj)

def allocate (itemSize : Nat) : Option (Allocated (Nat × Store)) :=
  (t.removeFreeChunkFromHead (itemSize+2)).map fun
    | .insufficientSpace => .insufficientSpace
    | .chunk (start,size,t) =>
      let split := decide (minSize ≤ size-(itemSize+2))
      let t := if split then t.insertFreeChunk (start+(itemSize+2)) (size-(itemSize+2)) else t
      let t := t.setTags start (if split then itemSize+2 else size) true
      .chunk (start+1,t.store (start+1) [itemSize])

def deallocate (offset : Nat) : Store :=
  let (start,size,t) := t.coalesceLeft (offset-1) (tagSize (t.data (offset-1)))
  let (start,size,t) := t.coalesceRight c start size
  t.insertFreeChunk start size

def setSlot (r : Ref) (i : Nat) (e : Option Entry) : Store :=
  { t with slots := update t.slots r (update (t.slots r) i e) }

def setNext (r : Ref) (x : Option Nat) : Store := { t with next := update t.next r x }

def follow : Nat → Option Nat → List Nat
  | 0,_ => []
  | _,none => []
  | fuel+1,some x => x :: follow fuel (t.next (.extra x))

def chain (b : Nat) : List Ref := .main b :: (t.follow c.numExtra (t.next (.main b))).map .extra

def findItemIndex (k : Key) : Option (Ref × Nat × Entry) :=
  (t.chain c (c.bucketIndex k)).findSome? fun r => (findInBucket t.data c.hash (t.slots r) itemsPerBucket k).map fun x => (r,x)

def lastRef (r : Ref) (xs : List Nat) : Ref := xs.getLast?.elim r .extra

def allocExtraBucket (r : Ref) : Option (Nat × Store) :=
  t.freeExtra.map fun x => (x,(({ t with freeExtra := t.next (.extra x) } : Store).setNext (.extra x) none).setNext r (some x))

def freeExtraBucket (r : Ref) (x : Nat) : Store :=
  { (t.setNext r none).setNext (.extra x) t.freeExtra with freeExtra := some x }

def findEmpty (b : Nat) : Option (Ref × Nat × Store) :=
  match (t.chain c b).findSome? fun r => ((List.range itemsPerBucket).find? fun i => (t.slots r i).isNone).map fun i => (r,i) with
  | some (r,i) => some (r,i,t)
  | none => (t.allocExtraBucket (lastRef (.main b) (t.follow c.numExtra (t.next (.main b))))).map fun (x,t) => (.extra x,0,t)

-- The hole is filled with the first item of the last bucket. Where that bucket has none,
-- the index it is taken from was never set: whatever it is, within the bucket it moves
-- nothing, and beyond it the access has no meaning.
def fillHole (r : Ref) (i garbage : Nat) : Option Store :=
  match (t.follow c.numExtra (t.next r)).getLast? with
  | none => some t
  | some x =>
    let prev := lastRef r (t.follow c.numExtra (t.next r)).dropLast
    let items := (List.range itemsPerBucket).filter fun j => (t.slots (.extra x) j).isSome
    let moved := items.headD garbage
    if moved < itemsPerBucket then
      let t := (t.setSlot r i (t.slots (.extra x) moved)).setSlot (.extra x) moved none
      some (if items.length ≤ 1 then t.freeExtraBucket prev x else t)
    else none

-- The first result says whether the assertion on the length holds.
def get (k : Key) : Option (Option (Value × Nat)) :=
  match t.findItemIndex c k with
  | none => some none
  | some (_,_,e) =>
    let value := readValue t.data e.offset
    if 1500 < value.length then none else some (some (value,expireTime (t.data (e.offset+1))))

def test (k : Key) : Bool := (t.findItemIndex c k).isSome

def setItemValue (offset : Nat) (v : Value) (expire : Nat) : Store := Mica.setItemValue store t.data t offset v expire

def setItem (offset : Nat) (k : Key) (v : Value) (expire : Nat) : Store := Mica.setItem store c.hash t offset k v expire

def insert (r : Ref) (i : Nat) (k : Key) (v : Value) (expire : Nat) (old : Option Nat) : Option (Bool × Store) :=
  (t.allocate (itemWords k.length v.length)).map fun
    | .insufficientSpace => (false,t)
    | .chunk (offset,t) =>
      let t := (t.setItem c offset k v expire).setSlot r i (some ⟨c.tag k,offset⟩)
      (true,match old with
        | none => t
        | some offset => t.deallocate c offset)

def set (k : Key) (v : Value) (expire : Nat) (overwrite : Bool) : Option (Bool × Store) :=
  match t.findItemIndex c k with
  | some (r,i,e) =>
    if !overwrite then some (false,t)
    else if itemWords k.length v.length ≤ t.data e.offset then some (true,t.setItemValue e.offset v expire)
    else t.insert c r i k v expire (some e.offset)
  | none =>
    match t.findEmpty c (c.bucketIndex k) with
    | none => some (false,t)
    | some (r,i,t) => t.insert c r i k v expire none

def delete (k : Key) (garbage : Nat) : Option (Bool × Store) :=
  match t.findItemIndex c k with
  | none => some (false,t)
  | some (r,i,_) => ((t.setSlot r i none).fillHole c r i garbage).map fun t => (true,t)

end

def blank : Store where
  data := fun _ => 0
  freeHead := fun _ => none
  slots := fun _ _ => none
  next
    | .main _ => none
    | .extra x => if x < c.numExtra then some (x+1) else none
  freeExtra := if c.numExtra = 0 then none else some 1

def initial : Store := (blank c).insertFreeChunk 0 c.size

-- A table with what its users know: the value of the last set of each key that no
-- successful delete followed. What an index that was never set holds is part of the call.
structure Session where
  store : Store
  map : Key → Option Value := fun _ => none

inductive Action where
  | set (k : Key) (v : Value) (expire : Nat) (overwrite : Bool)
  | get (k : Key)
  | test (k : Key)
  | delete (k : Key) (garbage : Nat)

def step (s : Session) : Action → Option Session
  | .set k v expire overwrite =>
    (s.store.set c k v expire overwrite).map fun (done,t) => ⟨t,if done then update s.map k (some v) else s.map⟩
  | .get k => (s.store.get c k).map fun _ => s
  | .test _ => some s
  | .delete k garbage => (s.store.delete c k garbage).map fun (done,t) => ⟨t,if done then update s.map k none else s.map⟩

end Store

def table (c : Store.Config) : Machine Store.Session Store.Action := ⟨{ store := Store.initial c },Store.step c⟩

end DbExp.Mica
