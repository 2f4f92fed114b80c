import DbExp.Foundation.OrdMap
import DbExp.Tapir.Log

namespace DbExp.Tapir

-- lib/configuration.cc. Host names and multicast are left out: the transport
-- below addresses replicas by index.
structure Configuration where
  n : Nat
  f : Nat
  replicas : 0 < n

theorem three_replicas : 0 < 3 := by decide

instance three_indices : NeZero 3 := ⟨by decide⟩

namespace Configuration

section
variable (config : Configuration)

def getLeaderIndex (view : Nat) : Fin config.n :=
  ⟨view % config.n,Nat.mod_lt _ config.replicas⟩

def quorumSize : Nat := config.f + 1

def fastQuorumSize : Nat := config.f + (config.f + 1) / 2 + 1

end

end Configuration

inductive Address (n : Nat) where
  | replica (idx : Fin n)
  | client (id : Nat)
  deriving DecidableEq, Repr

structure Packet (n : Nat) (μ : Type) where
  src : Address n
  dst : Address n
  msg : μ
  deriving DecidableEq, Repr

-- The wire format of requests and replies is the protobuf library's: all that is used
-- of it is that a message read back is the message written, and that reading nothing
-- leaves a message's fields at their defaults.
structure Codec (α : Type) (default : α) where
  serializeToString : α → String
  parseFromString : String → α
  parse_serialize : ∀ a, parseFromString (serializeToString a) = a
  parse_nothing : parseFromString "" = default

-- lib/transportcommon.h: a message to all goes to every replica but the sender.
def sendMessageToAll (src : Address n) (msg : μ) : List (Packet n μ) :=
  ((List.finRange n).filter (fun i => Address.replica i ≠ src)).map (fun i => ⟨src,.replica i,msg⟩)

theorem forall_toAll {fact : Packet n μ → Prop} (each : ∀ i, fact ⟨src,.replica i,msg⟩) : ∀ p ∈ sendMessageToAll src msg, fact p := by
  intro p mem
  obtain ⟨i,_,rfl⟩ := List.mem_map.mp mem
  exact each i

theorem mem_toAll {p : Packet n μ} (mem : p ∈ sendMessageToAll src msg) : p.msg = msg := by
  obtain ⟨_,_,rfl⟩ := List.mem_map.mp mem
  rfl

instance : LinearOrder Viewstamp :=
  LinearOrder.lift' (fun v => toLex (v.view,v.opnum)) (by
    rintro ⟨a,b⟩ ⟨c,d⟩ same
    simpa using same)

-- replication/common/quorumset.h: messages by id, then by the replica they are
-- from; a second message of the same replica replaces the first.
structure QuorumSet (Id : Type) [LinearOrder Id] (n : Nat) (Msg : Type) where
  numRequired : Nat
  messages : OrdMap Id (OrdMap (Fin n) Msg)

namespace QuorumSet
variable {Id Msg : Type} [LinearOrder Id] {n : Nat}

def new (numRequired : Nat) : QuorumSet Id n Msg := ⟨numRequired,.empty⟩

section
variable (q : QuorumSet Id n Msg)

def clear : QuorumSet Id n Msg := {q with messages := .empty}

def getMessages (vs : Id) : OrdMap (Fin n) Msg := (q.messages.find vs).getD .empty

def checkForQuorum (vs : Id) : Option (OrdMap (Fin n) Msg) :=
  if q.numRequired ≤ (q.getMessages vs).size then some (q.getMessages vs) else none

-- The overload without an id: the first id, in order, that has a quorum.
def checkForAnyQuorum : Option (OrdMap (Fin n) Msg) :=
  (q.messages.entries.map Prod.fst).findSome? q.checkForQuorum

def add (vs : Id) (replicaIdx : Fin n) (msg : Msg) : QuorumSet Id n Msg :=
  {q with messages := q.messages.insert vs ((q.getMessages vs).insert replicaIdx msg)}

def addAndCheckForQuorum (vs : Id) (replicaIdx : Fin n) (msg : Msg) :
    QuorumSet Id n Msg × Option (OrdMap (Fin n) Msg) :=
  (q.add vs replicaIdx msg,(q.add vs replicaIdx msg).checkForQuorum vs)

def Stored (vs : Id) (i : Fin n) (msg : Msg) : Prop := (q.getMessages vs).find i = some msg

theorem not_stored_new (k : Nat) : ¬ (new k : QuorumSet Id n Msg).Stored vs i msg := by
  simp [Stored,new,getMessages]

theorem not_stored_clear : ¬ q.clear.Stored vs i msg := by
  simp [Stored,clear,getMessages]

@[simp] theorem add_numRequired (vs : Id) (i : Fin n) (msg : Msg) :
    (q.add vs i msg).numRequired = q.numRequired := rfl

end

theorem stored_add {q : QuorumSet Id n Msg} (stored : (q.add vs i msg).Stored ws j other) :
    (ws = vs ∧ j = i ∧ other = msg) ∨ q.Stored ws j other := by
  unfold Stored add getMessages at *
  simp only [OrdMap.find_insert] at stored
  by_cases same : vs = ws
  · subst same
    simp only [if_true,Option.getD_some,OrdMap.find_insert] at stored
    by_cases origin : i = j
    · subst origin
      simp only [if_true,Option.some.injEq] at stored
      exact .inl ⟨rfl,rfl,stored.symm⟩
    · simp only [origin,if_false] at stored
      exact .inr stored
  · simp only [same,if_false] at stored
    exact .inr stored

theorem checkForQuorum_some {q : QuorumSet Id n Msg} (quorum : q.checkForQuorum vs = some msgs) :
    q.numRequired ≤ msgs.size ∧ ∀ i msg, msgs.find i = some msg ↔ q.Stored vs i msg := by
  unfold checkForQuorum at quorum
  split at quorum
  · cases quorum
    exact ⟨‹_›,fun _ _ => Iff.rfl⟩
  · cases quorum

theorem checkForAnyQuorum_some {q : QuorumSet Id n Msg} (quorum : q.checkForAnyQuorum = some msgs) :
    ∃ vs, q.checkForQuorum vs = some msgs := by
  obtain ⟨vs,_,got⟩ := List.exists_of_findSome?_eq_some quorum
  exact ⟨vs,got⟩

end QuorumSet
end DbExp.Tapir
