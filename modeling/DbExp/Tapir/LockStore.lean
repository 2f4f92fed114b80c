import DbExp.Tapir.LockTable
import DbExp.Foundation.Machine

namespace DbExp.Tapir.Locking

-- store/common/backend/kvstore.cc: the values of a key, the latest last.
abbrev KVStore := OrdMap String (List String)

namespace KVStore

def get (s : KVStore) (key : String) : Option String := ((s.find key).getD []).getLast?

def put (s : KVStore) (key value : String) : KVStore := s.insert key ((s.find key).getD [] ++ [value])

end KVStore

-- store/strongstore/lockstore.cc. Every lock that is asked for reads the clock: `clock`
-- gives the two readings for a key and a mode.
structure LockStore where
  store : KVStore
  locks : LockServer
  prepared : OrdMap Nat Transaction
  deriving DecidableEq

abbrev Clock := String → LockState → Time × Time

namespace LockStore

def new : LockStore := ⟨.empty,.empty,.empty⟩

def get (s : LockStore) (id : Nat) (key : String) (now later : Time) : LockStore × ReplyCode :=
  match KVStore.get s.store key with
  | none => (s,.fail)
  | some _ =>
    let (locks,granted) := s.locks.lockForRead key id now later
    ({s with locks},if granted then .ok else .retry)

section
variable (id : Nat) (clock : Clock) (acc : LockServer × Bool)

def readLock (read : String × Timestamp) : LockServer × Bool :=
  let (now,later) := clock read.1 .lockedForRead
  let (locks,granted) := acc.1.lockForRead read.1 id now later
  (locks,acc.2 && granted)

def writeLock (write : String × String) : LockServer × Bool :=
  let (now,later) := clock write.1 .lockedForWrite
  let (locks,granted) := acc.1.lockForWrite write.1 id now later
  (locks,acc.2 && granted)

end

section
variable (locks : LockServer) (id : Nat) (txn : Transaction)

-- A lock that is refused does not stop the others from being taken.
def getLocks (clock : Clock) : LockServer × Bool :=
  txn.writeSet.entries.foldl (writeLock id clock) (txn.readSet.entries.foldl (readLock id clock) (locks,true))

def dropLocks : LockServer :=
  txn.readSet.entries.foldl (fun locks read => locks.releaseForRead read.1 id)
    (txn.writeSet.entries.foldl (fun locks write => locks.releaseForWrite write.1 id) locks)

end

section
variable (s : LockStore) (id : Nat)

def prepare (txn : Transaction) (clock : Clock) : LockStore × ReplyCode :=
  if (s.prepared.find id).isSome then (s,.ok)
  else
    let (locks,granted) := getLocks s.locks id txn clock
    if granted then ({s with locks, prepared := s.prepared.insert id txn},.ok) else ({s with locks},.retry)

def preparedAs : Transaction := (s.prepared.find id).getD .empty

def commit (_timestamp : Nat) : LockStore where
  store := (s.preparedAs id).writeSet.entries.foldl (fun store write => store.put write.1 write.2) s.store
  locks := dropLocks s.locks id (s.preparedAs id)
  prepared := s.prepared.erase id

def abort (txn : Transaction) : LockStore :=
  {s with locks := dropLocks s.locks id txn, prepared := s.prepared.erase id}

end

def HoldsLock (s : LockStore) (id : Nat) : Prop := ∃ e ∈ s.locks.entries, id ∈ e.2.holders

instance (s : LockStore) (id : Nat) : Decidable (s.HoldsLock id) := by unfold HoldsLock; infer_instance

def load (s : LockStore) (key value : String) (_timestamp : Timestamp) : LockStore := {s with store := s.store.put key value}

end LockStore

-- store/common/frontend/bufferclient.cc and the strongstore client around it, for the
-- part of a transaction that runs at one shard. A Get is an unlogged request: it may be
-- lost, and so may its reply, and it may be executed late or twice. Prepare, Commit and
-- Abort go through the replicated log and are answered. `taken` records the transactions
-- that a Get or a Prepare took a lock for.
inductive Phase where
  | active
  | preparing (status : ReplyCode)
  | ended
  deriving DecidableEq

structure BufferClient where
  txn : Transaction
  waiting : Option String
  phase : Phase
  deriving DecidableEq

structure System where
  store : LockStore
  clients : Nat → BufferClient
  gets : List (Nat × String)
  replies : List (Nat × String)
  taken : List Nat

inductive Act where
  | put (id : Nat) (key value : String)
  | get (id : Nat) (key : String)
  | serve (id : Nat) (key : String) (now later : Time)
  | reply (id : Nat) (key : String)
  | giveUp (id : Nat)
  | prepare (id : Nat) (clock : Clock)
  | commit (id timestamp : Nat)
  | abort (id : Nat)
  | load (key value : String)

namespace System

def new : System := ⟨.new,fun _ => ⟨.empty,none,.active⟩,[],[],[]⟩

section
variable (s : System)

def set (id : Nat) (client : BufferClient) : System := {s with clients := Function.update s.clients id client}

def took (store : LockStore) (id : Nat) : List Nat := if store.HoldsLock id then id :: s.taken else s.taken

def Idle (id : Nat) : Prop := (s.clients id).phase = .active ∧ (s.clients id).waiting = none

instance (id : Nat) : Decidable (s.Idle id) := by unfold Idle; infer_instance

def step : Act → Option System
  | .put id key value =>
    if s.Idle id then some (s.set id {s.clients id with txn := (s.clients id).txn.addWriteSet key value}) else none
  | .get id key =>
    if s.Idle id then
      -- Own writes are read from the buffer.
      if (s.clients id).txn.writes key then some s
      else some {s.set id {s.clients id with waiting := some key} with gets := (id,key) :: s.gets}
    else none
  | .serve id key now later =>
    if (id,key) ∈ s.gets then
      let (store,code) := s.store.get id key now later
      some {s with store, replies := if code = .ok then (id,key) :: s.replies else s.replies, taken := s.took store id}
    else none
  | .reply id key =>
    if (s.clients id).waiting = some key ∧ (id,key) ∈ s.replies then
      some (s.set id {s.clients id with waiting := none, txn := (s.clients id).txn.addReadSet key .zero})
    else none
  | .giveUp id => if ((s.clients id).waiting).isSome then some (s.set id {s.clients id with waiting := none}) else none
  | .prepare id clock =>
    if (s.clients id).waiting = none ∧ (s.clients id).phase ≠ .ended then
      let (store,code) := s.store.prepare id (s.clients id).txn clock
      some {s.set id {s.clients id with phase := .preparing code} with store, taken := s.took store id}
    else none
  | .commit id timestamp =>
    if (s.clients id).phase = .preparing .ok then
      some {s.set id {s.clients id with phase := .ended} with store := s.store.commit id timestamp}
    else none
  | .abort id =>
    -- BufferClient::Abort sends an empty transaction.
    if (s.clients id).waiting = none ∧ (s.clients id).phase ≠ .ended then
      some {s.set id {s.clients id with phase := .ended} with store := s.store.abort id .empty}
    else none
  | .load key value => some {s with store := s.store.load key value .zero}

def Released : Prop := ∀ id, (s.clients id).phase = .ended → ∀ key, id ∉ (LockServer.lock s.store.locks key).holders

-- No Get or Prepare of an aborted transaction took a lock, a committed one must know of every read
-- lock it holds, and a Get must not be executed for a transaction that has ended.
def Guarded : Act → Prop
  | .serve id _ _ _ => (s.clients id).phase ≠ .ended
  | .commit id _ => ∀ e ∈ s.store.locks.entries, id ∈ e.2.holders →
      e.2.state = .lockedForRead ∨ e.2.state = .lockedForReadWrite → (s.clients id).txn.reads e.1 = true
  | .abort id => id ∉ s.taken
  | _ => True

instance (act : Act) : Decidable (s.Guarded act) := by
  unfold Guarded; split <;> infer_instance

end

end System

end DbExp.Tapir.Locking
