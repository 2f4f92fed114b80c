import DbExp.Tapir.VersionStore
import DbExp.Tapir.Quorum

namespace DbExp.Tapir.TapirStore

-- store/tapirstore/store.cc
structure Store where
  linearizable : Bool
  store : VersionedKVStore
  prepared : OrdMap Nat (Timestamp × Transaction)
  deriving DecidableEq

namespace Store

def new (linearizable : Bool) : Store := ⟨linearizable,.empty,.empty⟩

section
variable (s : Store)

def get (key : String) := ReplyCode.found (s.store.get key)

def getAt (key : String) (timestamp : Timestamp) := ReplyCode.found (s.store.getAt key timestamp)

def preparedTimes (touches : Transaction → Bool) : OrdMap Timestamp Unit :=
  s.prepared.entries.foldl (fun times t => if touches t.2.2 then times.add t.2.1 () else times) .empty

def getPreparedWrites (key : String) : OrdMap Timestamp Unit := s.preparedTimes (fun txn => txn.writes key)

def getPreparedReads (key : String) : OrdMap Timestamp Unit := s.preparedTimes (fun txn => txn.reads key)

section
variable (timestamp : Timestamp)

def readCheck (read : String × Timestamp) : Option ReplyCode :=
  let pWrites := s.getPreparedWrites read.1
  match s.store.getRange read.1 read.2 with
  | none => none
  | some range =>
    if range.1 ≠ read.2 then none
    else if !range.2.isValid then
      if 0 < pWrites.size ∧ (s.linearizable ∨ (pWrites.atMost timestamp).isSome) then some .abstain else none
    else if s.linearizable ∨ range.2 < timestamp then some .fail
    else if pWrites.entries.any (fun writeTime => range.1 < writeTime.1 ∧ writeTime.1 < timestamp) then some .abstain
    else none

def committedCheck (key : String) : Option (ReplyCode × Timestamp) :=
  match s.store.get key with
  | none => none
  | some val =>
    if s.linearizable ∧ timestamp < val.1 then some (.retry,val.1)
    else
      match if s.linearizable then s.store.getLastRead key else s.store.getLastReadAt key timestamp with
      | none => none
      | some lastRead => if timestamp < lastRead then some (.retry,lastRead) else none

def pendingWriteCheck (key : String) : Option (ReplyCode × Timestamp) :=
  if s.linearizable then ((s.getPreparedWrites key).upperBound timestamp).map fun it => (.retry,it.1) else none

def pendingReadCheck (key : String) : Option (ReplyCode × Timestamp) :=
  ((s.getPreparedReads key).upperBound timestamp).map fun _ => (.abstain,.zero)

def writeCheck (write : String × String) : Option (ReplyCode × Timestamp) :=
  (s.committedCheck timestamp write.1).or ((s.pendingWriteCheck timestamp write.1).or (s.pendingReadCheck timestamp write.1))

end

section
variable (id : Nat)

def checkAndPrepare (txn : Transaction) (timestamp : Timestamp) : Store × ReplyCode × Timestamp :=
  match txn.readSet.entries.findSome? (s.readCheck timestamp) with
  | some code => (s,code,.zero)
  | none =>
    match txn.writeSet.entries.findSome? (s.writeCheck timestamp) with
    | some (code,proposed) => (s,code,proposed)
    | none => ({s with prepared := s.prepared.insert id (timestamp,txn)},.ok,.zero)

-- A transaction prepared at another timestamp is forgotten before the checks are run
-- for the new one.
def forget : Store := {s with prepared := s.prepared.erase id}

def prepare (txn : Transaction) (timestamp : Timestamp) : Store × ReplyCode × Timestamp :=
  match s.prepared.find id with
  | none => s.checkAndPrepare id txn timestamp
  | some p => if p.1 = timestamp then (s,.ok,.zero) else (s.forget id).checkAndPrepare id txn timestamp

def commitAt (store : VersionedKVStore) (timestamp : Timestamp) (txn : Transaction) (puts : List (String × String × Timestamp)) :
    VersionedKVStore :=
  puts.foldl (fun store put => store.put put.1 put.2.1 put.2.2)
    (txn.readSet.entries.foldl (fun store read => store.commitGet read.1 read.2 timestamp) store)

def preparedAs : Timestamp × Transaction := (s.prepared.find id).getD (.zero,.empty)

def installs : List (String × String × Timestamp) := (s.preparedAs id).2.puts (s.preparedAs id).1

def commit (_timestamp : Nat) : Store :=
  {s with store := commitAt s.store (s.preparedAs id).1 (s.preparedAs id).2 (s.installs id), prepared := s.prepared.erase id}

def abort (_txn : Transaction) : Store := s.forget id

end

def load (key value : String) (timestamp : Timestamp) : Store :=
  {s with store := s.store.put key value timestamp}

end

end Store

-- store/tapirstore/server.cc. An operation of the wrong kind is a panic.
inductive Operation where
  | get (key : String) (timestamp : Option Timestamp)
  | prepare (txn : Transaction) (timestamp : Timestamp)
  | commit (timestamp : Nat)
  | abort (txn : Transaction)
  deriving DecidableEq

structure Request where
  txnid : Nat
  op : Operation
  deriving DecidableEq

structure Reply where
  status : ReplyCode
  value : Option String := none
  timestamp : Option Timestamp := none
  deriving DecidableEq, Repr

section
variable (s : Store) (request : Request)

def execInconsistentUpcall : Option Store :=
  match request.op with
  | .commit timestamp => some (s.commit request.txnid timestamp)
  | .abort txn => some (s.abort request.txnid txn)
  | _ => none

def execConsensusUpcall : Option (Store × Reply) :=
  match request.op with
  | .prepare txn timestamp =>
    let (t,status,proposed) := s.prepare request.txnid txn timestamp
    some (t,{status, timestamp := if proposed.isValid then some proposed else none})
  | _ => none

def unloggedUpcall : Option Reply :=
  match request.op with
  | .get key none => some {status := (s.get key).1, value := (s.get key).2.map Prod.snd, timestamp := (s.get key).2.map Prod.fst}
  | .get key (some timestamp) => some {status := (s.getAt key timestamp).1, value := (s.getAt key timestamp).2.map Prod.snd}
  | _ => none

end

end DbExp.Tapir.TapirStore
