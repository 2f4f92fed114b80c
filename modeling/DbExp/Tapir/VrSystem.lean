import DbExp.Foundation.Machine
import DbExp.Tapir.VrReplica

namespace DbExp.Tapir.Vr
open Function

-- replication/vr/client.cc. A pending request remembers which of its two timers it
-- has: a logged one is resent, an unlogged one is given up. `results` records the
-- continuations that ran.
structure PendingRequest where
  request : String
  clientReqId : Nat
  unlogged : Bool
  deriving DecidableEq, Repr

structure Client where
  lastReqId : Nat := 0
  pendingReqs : Nat → Option PendingRequest := fun _ => none
  results : List (Nat × String) := []

namespace Client

def sendRequest (clientid : Nat) (req : PendingRequest) : List (Packet n (Message n)) :=
  sendMessageToAll (.client clientid) (.request ⟨req.request,clientid,req.clientReqId⟩)

section
variable {n : Nat} (clientid : Nat) (c : Client)

def invoke (request : String) : Client × List (Packet n (Message n)) :=
  let req : PendingRequest := ⟨request,c.lastReqId + 1,false⟩
  ({c with
      lastReqId := c.lastReqId + 1
      pendingReqs := update c.pendingReqs (c.lastReqId + 1) (some req)},
    sendRequest clientid req)

def invokeUnlogged (replicaIdx : Fin n) (request : String) :
    Client × List (Packet n (Message n)) :=
  ({c with
      lastReqId := c.lastReqId + 1
      pendingReqs := update c.pendingReqs (c.lastReqId + 1) (some ⟨request,c.lastReqId + 1,true⟩)},
    [⟨.client clientid,.replica replicaIdx,.unloggedRequest ⟨request,clientid,c.lastReqId + 1⟩⟩])

def resendRequest (reqId : Nat) : List (Packet n (Message n)) :=
  match c.pendingReqs reqId with
  | none => []
  | some req => sendRequest clientid req

end

def handleReply (c : Client) (reqId : Nat) (reply : String) : Client :=
  match c.pendingReqs reqId with
  | none => c
  | some _ =>
    {c with
      pendingReqs := update c.pendingReqs reqId none
      results := c.results ++ [(reqId,reply)]}

def unloggedRequestTimeoutCallback (c : Client) (reqId : Nat) : Client :=
  {c with pendingReqs := update c.pendingReqs reqId none}

end Client

inductive Timer where
  | viewChange
  | nullCommit
  | stateTransfer
  | resendPrepare
  | closeBatch
  deriving DecidableEq, Repr

def Replica.armed (r : Replica n σ) : Timer → Bool
  | .viewChange => r.viewChangeTimeout
  | .nullCommit => r.nullCommitTimeout
  | .stateTransfer => r.stateTransferTimeout
  | .resendPrepare => r.resendPrepareTimeout
  | .closeBatch => r.closeBatchTimeout

section
variable (env : Env σ)

def timerFired (me : Fin env.config.n) (r : Replica env.config.n σ) : Timer → Effect env.config.n σ
  | .viewChange => startViewChange env me r (r.view + 1)
  | .nullCommit => sendNullCommit env me r
  | .stateTransfer => ⟨{r with lastRequestStateTransferView := 0, lastRequestStateTransferOpnum := 0},[]⟩
  | .resendPrepare => resendPrepare env me r
  | .closeBatch => closeBatch env me r

-- `network` holds every packet ever sent and delivery does not remove it: any
-- packet may be delivered late, twice, out of order, or never.
structure System where
  replicas : Fin env.config.n → Replica env.config.n σ
  clients : Nat → Client
  network : List (Packet env.config.n (Message env.config.n))

inductive Action (n : Nat) where
  | deliver (packet : Packet n (Message n)) (stray : Stray n)
  | timeout (replica : Fin n) (timer : Timer)
  | invoke (clientid : Nat) (request : String)
  | invokeUnlogged (clientid : Nat) (replicaIdx : Fin n) (request : String)
  | resend (clientid : Nat) (reqId : Nat)
  | giveUp (clientid : Nat) (reqId : Nat)
  deriving DecidableEq, Repr

namespace System
variable {env}

def initial (app : σ) : System env where
  replicas := fun i => Replica.new env i app
  clients := fun _ => {}
  network := []

section
variable (s : System env)

def perform (i : Fin env.config.n) (e : Effect env.config.n σ) : System env :=
  {s with
    replicas := update s.replicas i e.replica
    network := s.network ++ e.sent}

def clientDoes (id : Nat) (c : Client) (sent : List (Packet env.config.n (Message env.config.n))) :
    System env :=
  {s with
    clients := update s.clients id c
    network := s.network ++ sent}

def clientReceives (id : Nat) : Message env.config.n → Option (System env)
  | .reply msg => some (s.clientDoes id ((s.clients id).handleReply msg.clientreqid msg.reply) [])
  | .unloggedReply reply clientreqid => some (s.clientDoes id ((s.clients id).handleReply clientreqid reply) [])
  | _ => none

def step : Action env.config.n → Option (System env)
  | .deliver p stray =>
    if p ∈ s.network then
      match p.dst with
      | .replica i =>
        if (s.replicas i).panicked then none
        else some (s.perform i (receiveMessage env i (s.replicas i) p.src stray p.msg))
      | .client id => s.clientReceives id p.msg
    else none
  | .timeout i timer =>
    if (s.replicas i).panicked = false ∧ (s.replicas i).armed timer then
      some (s.perform i (timerFired env i (s.replicas i) timer))
    else none
  | .invoke id request =>
    let done := (s.clients id).invoke id request
    some (s.clientDoes id done.1 done.2)
  | .invokeUnlogged id idx request =>
    let done := (s.clients id).invokeUnlogged id idx request
    some (s.clientDoes id done.1 done.2)
  | .resend id reqId =>
    match (s.clients id).pendingReqs reqId with
    | some ⟨_,_,false⟩ => some (s.clientDoes id (s.clients id) ((s.clients id).resendRequest id reqId))
    | _ => none
  | .giveUp id reqId =>
    match (s.clients id).pendingReqs reqId with
    | some ⟨_,_,true⟩ => some (s.clientDoes id ((s.clients id).unloggedRequestTimeoutCallback reqId) [])
    | _ => none

end

end System

def machine (app : σ) : Machine (System env) (Action env.config.n) := ⟨.initial app,System.step⟩

abbrev Reached (app : σ) (allow : System env → Action env.config.n → Prop) : System env → Prop := (machine env app).Reached allow

end

variable {env : Env σ}

def Agreement (s : System env) : Prop :=
  ∀ i j k a b, (k,a) ∈ (s.replicas i).executed → (k,b) ∈ (s.replicas j).executed → a = b

def AtMostOnce (s : System env) : Prop :=
  ∀ i k l a b, (k,a) ∈ (s.replicas i).executed → (l,b) ∈ (s.replicas i).executed →
    a.clientid = b.clientid → a.clientreqid = b.clientreqid → k = l

-- How a replica stands in a view change: the latest view below it in which the
-- replica was NORMAL, and the view and opnum of its last log entry.
structure Standing where
  lastNormal : Nat
  entryView : Nat
  lastOp : Nat
  deriving DecidableEq, Repr

def lastNormal (r : Replica n σ) (view : Nat) : Nat := ((r.entered.filter (· < view)).max?).getD 0

def ownStanding (r : Replica n σ) (view : Nat) : Standing :=
  ⟨lastNormal r view,r.log.lastViewstamp.view,r.log.lastViewstamp.opnum⟩

def sentStanding (s : System env) (msg : DoViewChangeMessage env.config.n) : Standing :=
  ⟨lastNormal (s.replicas msg.replicaIdx) msg.view,msg.lastNormalView,msg.lastOp⟩

def Standing.Behind (y x : Standing) : Prop :=
  (y.lastNormal < x.lastNormal ∨ y.lastNormal = x.lastNormal ∧ y.lastOp ≤ x.lastOp) ∧
  (y.entryView < x.entryView ∨ y.entryView = x.entryView ∧ y.lastOp ≤ x.lastOp)

instance (y x : Standing) : Decidable (y.Behind x) := inferInstanceAs (Decidable (_ ∧ _))

def ignoresView (r : Replica n σ) (view : Nat) : Prop :=
  view < r.view ∨ view = r.view ∧ r.status ≠ .viewChange

instance (r : Replica n σ) (view : Nat) : Decidable (ignoresView r view) := inferInstanceAs (Decidable (_ ∨ _))

def NoLater (view op view' op' : Nat) : Prop := view < view' ∨ view = view' ∧ op ≤ op'

instance : Decidable (NoLater v k w l) := inferInstanceAs (Decidable (_ ∨ _))

section
variable (own : Viewstamp) (msgs : List (Fin n × DoViewChangeMessage n))

-- The viewstamps HandleDoViewChange compares, and where the latest of them ends.
def compared : List Viewstamp := own :: msgs.map fun kv => ⟨kv.2.lastNormalView,kv.2.lastOp⟩

def LatestEnds (ends : Nat → Prop) : Prop :=
  ∃ x ∈ compared own msgs, ends x.opnum ∧ ∀ y ∈ compared own msgs, NoLater y.view y.opnum x.view x.opnum

instance [DecidablePred ends] : Decidable (LatestEnds own msgs ends) := by unfold LatestEnds; infer_instance

-- latestMsg points to a copy that is gone. Where it is not NULL, a latest message of
-- the quorum is read there.
def ReadsLatest (stray : Stray n) : Prop :=
  (∀ kv ∈ msgs, NoLater kv.2.lastNormalView kv.2.lastOp own.view own.opnum) ∨
  (∃ kv ∈ msgs, kv.2 = stray.latest) ∧
    ∀ kv ∈ msgs, NoLater kv.2.lastNormalView kv.2.lastOp stray.latest.lastNormalView stray.latest.lastOp

instance : Decidable (ReadsLatest own msgs stray) := inferInstanceAs (Decidable (_ ∨ _))

end

section
variable (s : System env) (i : Fin env.config.n) (stray : Stray env.config.n) (msg : DoViewChangeMessage env.config.n)

-- HandleDoViewChange ranks logs by the view of their last entry. Its choice is the
-- right one when some member of the quorum is ahead in both senses.
def LatestLogSelected : Prop :=
  ignoresView (s.replicas i) msg.view ∨
  ∀ msgs ∈ ((s.replicas i).doViewChangeQuorum.addAndCheckForQuorum msg.view msg.replicaIdx msg).2,
    ReadsLatest (s.replicas i).log.lastViewstamp msgs.entries stray ∧
    ∃ x ∈ ownStanding (s.replicas i) msg.view :: msgs.entries.map (fun kv => sentStanding s kv.2),
      ∀ y ∈ ownStanding (s.replicas i) msg.view :: msgs.entries.map (fun kv => sentStanding s kv.2), y.Behind x

instance :
    Decidable (LatestLogSelected s i stray msg) := by
  unfold LatestLogSelected; infer_instance

end

section
variable (r : Replica n σ)

-- HandleStartView installs nothing when the new log is empty, not even an empty log.
def EmptyLogStarts (msg : StartViewMessage) : Prop :=
  ignoresView r msg.view ∨ (msg.entries = [] → r.log.entries = [])

instance (msg : StartViewMessage) : Decidable (EmptyLogStarts r msg) := inferInstanceAs (Decidable (_ ∨ _))

-- Transferred entries replace a stale suffix only from a place where the two logs
-- hold different views, so a suffix past the last of them stays.
def CoversSuffix (entries : List LogEntry) : Prop :=
  r.lastOp ≤ (entries.getLast?.map (fun e => e.viewstamp.opnum)).getD r.lastCommitted ∨
  ∃ e ∈ entries, r.lastCommitted < e.viewstamp.opnum ∧
    ∃ old ∈ r.log.find e.viewstamp.opnum, old.viewstamp.view ≠ e.viewstamp.view

instance (entries : List LogEntry) : Decidable (CoversSuffix r entries) :=
  inferInstanceAs (Decidable (_ ∨ _))

end

section
variable (i : Fin env.config.n) (r : Replica env.config.n σ)

-- HandleStateTransfer looks at no status and not at who leads: in its own view it
-- is right for a NORMAL replica, and for the leader only with nothing in flight,
-- since the leader would acknowledge its own operations to itself.
def TransferFits (msg : StateTransferMessage) : Prop :=
  msg.view < r.view ∨
  (msg.view = r.view ∧ r.status = .normal ∧ (r.AmLeader env i → r.lastOp ≤ max r.lastCommitted msg.opnum)) ∨
  (r.view < msg.view ∧ CoversSuffix r msg.entries)

instance (msg : StateTransferMessage) : Decidable (TransferFits i r msg) :=
  inferInstanceAs (Decidable (_ ∨ _ ∨ _))

def RequestTabled (req : Request) : Prop :=
  r.status = .normal → r.AmLeader env i →
    (∃ e ∈ r.log.entries, e.request.clientid = req.clientid ∧ e.request.clientreqid = req.clientreqid) →
    ∃ entry ∈ r.clientTable req.clientid, req.clientreqid ≤ entry.lastReqId

instance (req : Request) : Decidable (RequestTabled i r req) :=
  inferInstanceAs (Decidable (_ → _ → _ → _))

end

end DbExp.Tapir.Vr
