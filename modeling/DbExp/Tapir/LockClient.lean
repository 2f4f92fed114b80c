import DbExp.Tapir.LockServer
import DbExp.Tapir.IrSystem

namespace DbExp.Tapir.Lock
open Ir (Action Client Completion)

section
variable (wire : Wire)

-- lockserver/client.cc. The threshold in Decide is the constant 2, which is a
-- majority of three replicas.
def decideStep (acc : Nat × String) (result : String × Nat) : Nat × String :=
  let reply := wire.reply.parseFromString result.1
  (if reply.status = 0 then acc.1 + result.2 else acc.1,reply.key)

def decide (results : OrdMap String Nat) : String :=
  let counted := results.entries.foldl (decideStep wire) (0,"")
  wire.reply.serializeToString ⟨counted.2,if 2 ≤ counted.1 then 0 else -1⟩

def lockEnv : Ir.Env Locks := ⟨⟨3,1,three_replicas⟩,lockServer wire⟩

structure Call where
  reqId : Nat
  key : String
  lock : Bool
  deriving DecidableEq, Repr

-- The replicas and IR clients, and for every LockClient the calls it has made, with
-- the request id each got. A call is made only when the one before has returned.
structure System where
  ir : Ir.System (lockEnv wire)
  calls : Nat → List Call

inductive Act where
  | lock (clientid : Nat) (key : String)
  | unlock (clientid : Nat) (key : String)
  | deliver (packet : Packet 3 (Ir.Message 3))
  | requestTimeout (clientid : Nat) (reqId : Nat)
  | slowPath (clientid : Nat) (reqId : Nat)
  deriving DecidableEq
end

namespace System
variable {wire : Wire}

def initial : System wire := ⟨.initial .empty,fun _ => []⟩

section
variable (s : System wire)

def completions (id : Nat) (reqId : Nat) : List Completion :=
  (s.ir.clients id).completed.filter (fun done => done.reqId = reqId)

-- What LockCallback, UnlockCallback or ErrorCallback put into the promise, once one
-- of them has run.
def status (id : Nat) (call : Call) : Option Int :=
  (s.completions id call.reqId).head?.map fun done =>
    match done.result with
    | .ok reply => if call.lock then (wire.reply.parseFromString reply).status else 0
    | .error _ => -3

def waiting (id : Nat) : Bool := (s.calls id).any (fun call => (s.status id call).isNone)

def issue (id : Nat) (key : String) (lock : Bool) : Option (System wire) :=
  if s.waiting id then none
  else
    let request := wire.request.serializeToString ⟨id,key,lock⟩
    (s.ir.step (if lock then .invokeConsensus id request (decide wire) else .invokeInconsistent id request)).map fun ir =>
      ⟨ir,Function.update s.calls id (s.calls id ++ [⟨(s.ir.clients id).lastReqId + 1,key,lock⟩])⟩

-- No replica's view change timer is in the list of actions.
def step : Act → Option (System wire)
  | .lock id key => s.issue id key true
  | .unlock id key => s.issue id key false
  | .deliver p => (s.ir.step (.deliver p)).map fun ir => {s with ir := ir}
  | .requestTimeout id reqId => (s.ir.step (.requestTimeout id reqId)).map fun ir => {s with ir := ir}
  | .slowPath id reqId => (s.ir.step (.slowPath id reqId)).map fun ir => {s with ir := ir}

def lastReturned (id : Nat) (key : String) : Option (Call × Int) :=
  ((s.calls id).filterMap fun call => if call.key = key then (s.status id call).map (fun status => (call,status)) else none).getLast?

def Holds (id : Nat) (key : String) : Prop :=
  ∃ call, s.lastReturned id key = some (call,0) ∧ call.lock = true

end

end System

def machine (wire : Wire) : Machine (System wire) Act := ⟨.initial,System.step⟩

abbrev Reached (wire : Wire) (allow : System wire → Act → Prop) : System wire → Prop := (machine wire).Reached allow

variable {wire : Wire}

section
variable (s : System wire)

def MutualExclusion : Prop := ∀ key a b, s.Holds a key → s.Holds b key → a = b

def lastCall (id : Nat) (key : String) : Option Call := ((s.calls id).filter (fun call => call.key = key)).getLast?

def Alternates : Act → Prop
  | .lock id key => (lastCall s id key).all (fun call => !call.lock)
  | .unlock id key => (lastCall s id key).any (fun call => call.lock)
  | _ => True

instance (act : Act) : Decidable (Alternates s act) := by
  unfold Alternates
  split <;> infer_instance

section
variable (wire : Wire) (r : Ir.Replica 3 Locks) (opid : Ir.Opid)

-- Executing an unlock must not take away a lock that the same client got by a later
-- request of which this replica has the successful entry.
def KeepsLaterLocks : Prop :=
  ∀ e ∈ r.record.find opid, e.state = .tentative →
    r.app.find (wire.request.parseFromString e.request.op).key = some (wire.request.parseFromString e.request.op).clientid →
    ∀ x ∈ r.record.entries, x.1.clientid = opid.clientid → opid.clientreqid < x.1.clientreqid → x.2.type = .consensus →
      (wire.request.parseFromString x.2.request.op).key = (wire.request.parseFromString e.request.op).key →
      (wire.reply.parseFromString x.2.result).status ≠ 0

instance decideKeepsLaterLocks : Decidable (KeepsLaterLocks wire r opid) := by
  unfold KeepsLaterLocks; infer_instance

end

def ReleasesInOrder : Act → Prop
  | .deliver ⟨_,.replica i,.finalizeInconsistent opid⟩ => KeepsLaterLocks wire (s.ir.replicas i) opid
  | _ => True

instance (act : Act) : Decidable (ReleasesInOrder s act) := by
  unfold ReleasesInOrder
  split
  · exact decideKeepsLaterLocks wire _ _
  · infer_instance

end

end DbExp.Tapir.Lock
