import DbExp.Foundation.Machine
import DbExp.Foundation.Serial

namespace DbExp.Aria.Calvin
open Function
open Serial

structure Slot (κ : Type) where
  key : κ
  write : Bool
  deriving DecidableEq, Repr

-- A stored procedure: the keys it reads, some of them for update, and the statements
-- that follow process_requests. A statement updates one slot of the storage in place;
-- what the storage holds for the keys read for update is written in the end.
structure Txn (κ ν : Type) where
  reads : List (Slot κ)
  body : List (Nat × (List ν → ν))

section
variable {κ ν : Type}

def assign (values : List ν) (statement : Nat × (List ν → ν)) : List ν := values.set statement.1 (statement.2 values)

namespace Txn

def observe (t : Txn κ ν) (db : κ → ν) : List ν := t.reads.map fun x => db x.key

def outcome (t : Txn κ ν) (values : List ν) : List ν := t.body.foldl assign values

def effects (t : Txn κ ν) (values : List ν) : List (κ × ν) :=
  (t.reads.zip values).filterMap fun x => if x.1.write then some (x.1.key,x.2) else none

def execute [DecidableEq κ] (t : Txn κ ν) (db : κ → ν) : κ → ν := install db (t.effects (t.outcome (t.observe db)))

end Txn

-- CalvinHelper: nine bits count the read locks and one is the write lock.
structure Lock where
  readers : Nat
  writer : Bool
  deriving DecidableEq, Repr

def readLockMax : Nat := 0x1ff

namespace Lock

section
variable (l : Lock)

def readLock : Option Lock :=
  if l.writer || l.readers = readLockMax then none else some {l with readers := l.readers + 1}

def writeLock : Option Lock :=
  if l.readers ≠ 0 || l.writer then none else some {l with writer := true}

def readLockRelease : Lock := {l with readers := l.readers - 1}

def writeLockRelease : Lock := {l with writer := false}

def take (write : Bool) : Option Lock := if write then l.writeLock else l.readLock

def release (write : Bool) : Lock := if write then l.writeLockRelease else l.readLockRelease

end

end Lock

-- One replica group: `nodes` is replica_group_size, and each node has its lock
-- managers and workers. Every node generates the same batch; `storage` is what a
-- node's storage of a transaction holds after the analysis.
structure Batch (κ ν : Type) where
  nodes : Nat
  lockManagers : Nat
  workers : Nat
  partition : κ → Nat
  txns : List (Txn κ ν)
  storage : Nat → Nat → List ν
  db : κ → ν
  some_nodes : 0 < nodes
  some_managers : 0 < lockManagers
  some_workers : 0 < workers
  workers_split : workers % lockManagers = 0
  once : ∀ t ∈ txns, (t.reads.map Slot.key).Nodup
  storage_fits : ∀ c i t, txns[i]? = some t → (storage c i).length = t.reads.length

namespace Batch
variable (b : Batch κ ν)

def master (k : κ) : Nat := b.partition k % b.nodes

def manager (k : κ) : Nat := b.partition k / b.nodes % b.lockManagers

def managerOf (w : Nat) : Nat := w / (b.workers / b.lockManagers)

def availableWorker (m request : Nat) : Nat :=
  request % (b.workers / b.lockManagers) + b.workers / b.lockManagers * m

def slot (i p : Nat) : Option (Slot κ) := b.txns[i]?.bind fun t => t.reads[p]?

def size (i : Nat) : Nat := (b.txns[i]?.map fun t => t.reads.length).getD 0

def body (i : Nat) : List (Nat × (List ν → ν)) := (b.txns[i]?.map Txn.body).getD []

def slots (c m i : Nat) : List Nat :=
  (List.range (b.size i)).filter fun p => (b.slot i p).any fun x => b.master x.key == c && b.manager x.key == m

def modeSlots (write : Bool) (c m i : Nat) : List Nat := (b.slots c m i).filter fun p => (b.slot i p).any fun x => x.write == write

def localSlots (c i : Nat) : List Nat := (List.range (b.size i)).filter fun p => (b.slot i p).any fun x => b.master x.key == c

def remoteSlots (c i : Nat) : List Nat := (List.range (b.size i)).filter fun p => (b.slot i p).any fun x => b.master x.key != c

def active (c i : Nat) : Bool := (List.range (b.size i)).any fun p => (b.slot i p).any fun x => x.write && b.master x.key == c

end Batch

structure Message (ν : Type) where
  node : Nat
  txn : Nat
  slot : Nat
  value : ν

structure Store (ν : Type) where
  values : List ν
  localRead : Nat
  remoteRead : Nat

-- What the threads of all nodes share: the partitions with their lock words, each
-- node's transaction objects, and the read messages under way.
structure Shared (κ ν : Type) where
  db : κ → ν
  locks : κ → Lock
  stores : Nat × Nat → Store ν
  network : List (Message ν)

-- How far one lock manager and its workers are with one transaction.
inductive Stage (ν : Type) where
  | locking (todo : List Nat)
  | queued
  | reading (todo : List Nat)
  | running (left : List (Nat × (List ν → ν)))
  | writing (todo : List Nat)
  | releasing (todo : List Nat)
  | done

section
variable [DecidableEq κ] (b : Batch κ ν)

def lockSlot (i p : Nat) (s : Shared κ ν) : Option (Shared κ ν) :=
  (b.slot i p).bind fun x => ((s.locks x.key).take x.write).map fun lock => {s with locks := update s.locks x.key lock}

-- The read handler: the value goes to the storage and to every other active node.
def readSlot (c i p : Nat) (x : Slot κ) (s : Shared κ ν) : Shared κ ν :=
  let value := s.db x.key
  let store := s.stores (c,i)
  let others := (List.range b.nodes).filter fun d => d != c && b.active d i
  {s with
    stores := update s.stores (c,i) ⟨store.values.set p value,store.localRead - 1,store.remoteRead⟩
    network := s.network ++ others.map fun d => ⟨d,i,p,value⟩}

def assignSlot (c i : Nat) (statement : Nat × (List ν → ν)) (s : Shared κ ν) : Shared κ ν :=
  let store := s.stores (c,i)
  {s with stores := update s.stores (c,i) {store with values := assign store.values statement}}

def writeSlot (x : Slot κ) (value : ν) (s : Shared κ ν) : Shared κ ν := {s with db := update s.db x.key value}

def releaseSlot (x : Slot κ) (s : Shared κ ν) : Shared κ ν :=
  {s with locks := update s.locks x.key ((s.locks x.key).release x.write)}

def deliver (k : Nat) (s : Shared κ ν) : Option (Shared κ ν) :=
  s.network[k]?.map fun msg =>
    let store := s.stores (msg.node,msg.txn)
    {s with
      stores := update s.stores (msg.node,msg.txn) ⟨store.values.set msg.slot msg.value,store.localRead,store.remoteRead - 1⟩
      network := s.network.eraseIdx k}

-- A worker on a transaction it has taken from its queue: process_requests, the
-- procedure, then commit, or abort on a node that is not active.
def work (c m i : Nat) (s : Shared κ ν) : Stage ν → Option (Shared κ ν × Stage ν)
  | .reading (p :: rest) => (b.slot i p).map fun x => (readSlot b c i p x s,.reading rest)
  | .reading [] =>
    if b.active c i then
      if (s.stores (c,i)).localRead = 0 ∧ (s.stores (c,i)).remoteRead = 0 then some (s,.running (b.body i)) else none
    else some (s,.releasing (b.modeSlots false c m i))
  | .running (statement :: left) => some (assignSlot c i statement s,.running left)
  | .running [] => some (s,.writing (b.modeSlots true c m i))
  | .writing (p :: rest) =>
    match b.slot i p,(s.stores (c,i)).values[p]? with
    | some x,some value => some (writeSlot x value s,.writing rest)
    | _,_ => none
  | .writing [] => some (s,.releasing (b.modeSlots false c m i ++ b.modeSlots true c m i))
  | .releasing (p :: rest) => (b.slot i p).map fun x => (releaseSlot x s,.releasing rest)
  | .releasing [] => some (s,.done)
  | .locking _ => none
  | .queued => none
  | .done => none

structure Manager where
  current : Nat
  todo : List Nat
  requests : Nat

structure Worker (ν : Type) where
  queue : List Nat
  job : Option (Nat × Stage ν)

structure State (κ ν : Type) where
  shared : Shared κ ν
  managers : Nat × Nat → Manager
  workers : Nat × Nat → Worker ν

inductive Action where
  | manage (c m : Nat)
  | work (c w : Nat)
  | deliver (k : Nat)
  deriving DecidableEq, Repr

def initialShared : Shared κ ν where
  db := b.db
  locks := fun _ => ⟨0,false⟩
  stores := fun x => ⟨b.storage x.1 x.2,(b.localSlots x.1 x.2).length,(b.remoteSlots x.1 x.2).length⟩
  network := []

def initial : State κ ν where
  shared := initialShared b
  managers := fun x => ⟨0,b.slots x.1 x.2 0,0⟩
  workers := fun _ => ⟨[],none⟩

section
variable (s : State κ ν)

def manage (c m : Nat) : Option (State κ ν) :=
  let x := s.managers (c,m)
  if x.current < b.txns.length then
    match x.todo with
    | p :: rest => (lockSlot b x.current p s.shared).map fun shared =>
        {s with shared := shared, managers := update s.managers (c,m) {x with todo := rest}}
    | [] =>
      if b.slots c m x.current = [] then
        some {s with managers := update s.managers (c,m) ⟨x.current + 1,b.slots c m (x.current + 1),x.requests⟩}
      else
        let w := b.availableWorker m x.requests
        let worker := s.workers (c,w)
        some {s with
          managers := update s.managers (c,m) ⟨x.current + 1,b.slots c m (x.current + 1),x.requests + 1⟩
          workers := update s.workers (c,w) {worker with queue := worker.queue ++ [x.current]}}
  else none

def keep (i : Nat) : Stage ν → Option (Nat × Stage ν)
  | .done => none
  | stage => some (i,stage)

def perform (c w : Nat) : Option (State κ ν) :=
  let x := s.workers (c,w)
  match x.job,x.queue with
  | none,[] => none
  | none,i :: rest =>
    some {s with workers := update s.workers (c,w) ⟨rest,some (i,.reading (b.slots c (b.managerOf w) i).reverse)⟩}
  | some (i,stage),queue => (work b c (b.managerOf w) i s.shared stage).map fun next =>
      {s with shared := next.1, workers := update s.workers (c,w) ⟨queue,keep i next.2⟩}

def step : Action → Option (State κ ν)
  | .manage c m => if c < b.nodes ∧ m < b.lockManagers then manage b s c m else none
  | .work c w => if c < b.nodes ∧ w < b.workers then perform b s c w else none
  | .deliver k => (deliver k s.shared).map fun shared => {s with shared := shared}

def machine : Machine (State κ ν) Action := ⟨initial b,step b⟩

def Complete : Prop :=
  ∀ c, c < b.nodes → (∀ m, m < b.lockManagers → b.txns.length ≤ (s.managers (c,m)).current) ∧
    ∀ w, w < b.workers → (s.workers (c,w)).queue = [] ∧ (s.workers (c,w)).job.isNone

instance : Decidable (Complete b s) := by unfold Complete; infer_instance

end

def serial (txns : List (Txn κ ν)) (db : κ → ν) : κ → ν := txns.foldl (fun db t => t.execute db) db

end
end
end DbExp.Aria.Calvin
