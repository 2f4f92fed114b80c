import DbExp.Foundation.Machine
import DbExp.Foundation.Ring
import DbExp.Mica.Layout

namespace DbExp.Mica
open Function

namespace Cache

-- Sizes and offsets are counted in words: every item is a whole number of words. Offsets
-- in the table have 48 bits in bytes, 45 in words.
def wrap : Nat := 2^45
def itemsPerBucket : Nat := 15

structure Config where
  logBuckets : Nat
  logSize : Nat
  mthThreshold : Nat
  hash : Key → Nat
  fewBuckets : logBuckets ≤ 31
  large : 18 ≤ logSize
  small : logSize ≤ 43

namespace Config

section
variable (c : Config)

def size : Nat := 2^c.logSize
def numBuckets : Nat := 2^c.logBuckets

-- The first shift that leaves at most as many offsets of half the range as there are
-- buckets.
def rshift : Nat := 44-c.logBuckets

def bucketIndex (k : Key) : Nat := calcBucketIndex c.numBuckets (c.hash k)

def tag (k : Key) : Nat := calcTag (c.hash k)

end

end Config

end Cache

open Cache

structure Cache where
  head : Nat := 0
  tail : Nat := 0
  data : Nat → Nat := fun _ => 0
  slots : Nat → Nat → Option Entry := fun _ _ => none

namespace Cache

variable (c : Config)

section
variable (t : Cache)

def word (pos : Nat) : Nat := Ring.read c.size t.data pos
def words (pos n : Nat) : List Nat := Ring.readAll c.size t.data pos n
def store (pos : Nat) (ws : List Nat) : Cache := { t with data := Ring.write c.size t.data pos ws }

def setSlot (b i : Nat) (e : Option Entry) : Cache :=
  { t with slots := update t.slots b (update (t.slots b) i e) }

def distance (offset : Nat) : Nat := (t.tail+(wrap-offset % wrap)) % wrap

def isValid (offset : Nat) : Bool := decide (t.distance offset ≤ c.size)

-- Items are taken off at the head until there is room. An item of size zero there would
-- keep the loop from ending.
def popHeads (v : Nat) : Nat → Nat → Option Nat
  | 0,head => if v ≤ head+c.size then some head else none
  | fuel+1,head => if v ≤ head+c.size then some head else popHeads v fuel (head+t.word c head)

def pushTail (itemSize : Nat) : Option (Nat × Cache) :=
  (t.popHeads c (t.tail+itemSize) (t.tail+itemSize) t.head).map fun head =>
    (t.tail % wrap,{ t.store c t.tail [itemSize] with head := head,tail := t.tail+itemSize })

def findItemIndex (k : Key) : Option (Nat × Entry) := findInBucket (t.word c) c.hash (t.slots (c.bucketIndex k)) itemsPerBucket k

def findSameTag (k : Key) : Option Nat :=
  (List.range itemsPerBucket).find? fun i => (t.slots (c.bucketIndex k) i).any fun e => e.tag == c.tag k

def findEmptyOrOldest (b : Nat) : Nat :=
  match (List.range itemsPerBucket).find? fun i => (t.slots b i).isNone with
  | some i => i
  | none =>
    ((List.range itemsPerBucket).foldl (fun (best : Nat × Nat) i =>
      match t.slots b i with
      | some e => if t.distance e.offset < best.2 then (i,t.distance e.offset) else best
      | none => best) (0,2^64-1)).1

def cleanOne (b : Nat) : Cache :=
  { t with slots := update t.slots b fun i => (t.slots b i).filter fun e => t.isValid c e.offset }

end

def cleanupLoop (t : Cache) (stop : Nat) : Nat → Nat → Cache
  | 0,_ => t
  | fuel+1,b =>
    if b = stop then t else cleanupLoop (t.cleanOne c b) stop fuel ((b+1) % c.numBuckets)

section
variable (t : Cache)

def cleanupBucket (oldTail newTail : Nat) : Cache :=
  t.cleanupLoop c (newTail / 2^c.rshift % c.numBuckets) c.numBuckets (oldTail / 2^c.rshift % c.numBuckets)

def moveToHead (b i : Nat) (e : Entry) (itemSize : Nat) : Option Cache :=
  (t.pushTail c itemSize).map fun (offset,pushed) =>
    let moved := if pushed.isValid c e.offset then
        (pushed.store c offset (pushed.words c e.offset itemSize)).setSlot b i (some ⟨e.tag,offset⟩)
      else pushed
    moved.cleanupBucket c offset pushed.tail

def get (k : Key) (readonly : Bool) : Option (Option (Value × Nat) × Cache) :=
  match t.findItemIndex c k with
  | none => some (none,t)
  | some (i,e) =>
    let w := t.word c (e.offset+1)
    let value := readValue (t.word c) e.offset
    if t.isValid c e.offset then
      if !readonly && decide (c.mthThreshold < 8*(t.distance e.offset % c.size)) then
        (t.moveToHead c (c.bucketIndex k) i e (itemWords (keyLength w) value.length)).map fun t => (some (value,expireTime w),t)
      else some (some (value,expireTime w),t)
    else some (none,if readonly then t else t.setSlot (c.bucketIndex k) i none)

def setItemValue (offset : Nat) (v : Value) (expire : Nat) : Cache := Mica.setItemValue (store c) (t.word c) t offset v expire

def setItem (offset : Nat) (k : Key) (v : Value) (expire : Nat) : Cache := Mica.setItem (store c) c.hash t offset k v expire

def insert (i : Nat) (k : Key) (v : Value) (expire : Nat) : Option Cache :=
  (t.pushTail c (itemWords k.length v.length)).map fun (offset,pushed) =>
    ((pushed.setItem c offset k v expire).setSlot (c.bucketIndex k) i (some ⟨c.tag k,offset⟩)).cleanupBucket c offset pushed.tail

def set (k : Key) (v : Value) (expire : Nat) (overwrite : Bool) : Option (Bool × Cache) :=
  match t.findItemIndex c k with
  | some (i,e) =>
    if !overwrite then some (false,t)
    else if t.isValid c e.offset && decide (itemWords k.length v.length ≤ t.word c e.offset) then
      some (true,t.setItemValue c e.offset v expire)
    else (t.insert c i k v expire).map fun t => (true,t)
  | none =>
    let i := match t.findSameTag c k with
      | some i => i
      | none => t.findEmptyOrOldest (c.bucketIndex k)
    (t.insert c i k v expire).map fun t => (true,t)

def delete (k : Key) : Bool × Cache :=
  match t.findItemIndex c k with
  | none => (false,t)
  | some (i,_) => (true,t.setSlot (c.bucketIndex k) i none)

end

-- A table with what its users know: the value of the last set of each key that no
-- successful delete followed.
structure Session where
  cache : Cache := {}
  last : Key → Option Value := fun _ => none

inductive Action where
  | set (k : Key) (v : Value) (expire : Nat)
  | get (k : Key) (readonly : Bool)
  | delete (k : Key)

def step (s : Session) : Action → Option Session
  | .set k v expire =>
    (s.cache.set c k v expire true).map fun (done,t) => ⟨t,if done then update s.last k (some v) else s.last⟩
  | .get k readonly => (s.cache.get c k readonly).map fun (_,t) => ⟨t,s.last⟩
  | .delete k =>
    let (done,t) := s.cache.delete c k
    some ⟨t,if done then update s.last k none else s.last⟩

end Cache

def cache (c : Cache.Config) : Machine Cache.Session Cache.Action := ⟨{},Cache.step c⟩

end DbExp.Mica
