import DbExp.Tapir.Quorum

namespace DbExp.Tapir.Vr
open Function

-- replication/vr/vr-proto.proto
structure ReplyMessage where
  view : Nat
  opnum : Nat
  clientreqid : Nat
  reply : String
  deriving DecidableEq, Repr, Inhabited

structure PrepareMessage where
  view : Nat
  opnum : Nat
  batchstart : Nat
  request : List Request
  deriving DecidableEq, Repr, Inhabited

structure PrepareOKMessage (n : Nat) where
  view : Nat
  opnum : Nat
  replicaIdx : Fin n
  deriving DecidableEq, Repr

structure CommitMessage where
  view : Nat
  opnum : Nat
  deriving DecidableEq, Repr

structure RequestStateTransferMessage where
  view : Nat
  opnum : Nat
  deriving DecidableEq, Repr

structure StateTransferMessage where
  view : Nat
  opnum : Nat
  entries : List LogEntry
  deriving DecidableEq, Repr

structure StartViewChangeMessage (n : Nat) where
  view : Nat
  replicaIdx : Fin n
  lastCommitted : Nat
  deriving DecidableEq, Repr

structure DoViewChangeMessage (n : Nat) where
  view : Nat
  lastNormalView : Nat
  lastOp : Nat
  lastCommitted : Nat
  entries : List LogEntry
  replicaIdx : Fin n
  deriving DecidableEq, Repr

structure StartViewMessage where
  view : Nat
  lastOp : Nat
  lastCommitted : Nat
  entries : List LogEntry
  deriving DecidableEq, Repr

inductive Message (n : Nat) where
  | request (req : Request)
  | unloggedRequest (req : Request)
  | reply (msg : ReplyMessage)
  | unloggedReply (reply : String) (clientreqid : Nat)
  | prepare (msg : PrepareMessage)
  | prepareOK (msg : PrepareOKMessage n)
  | commit (msg : CommitMessage)
  | requestStateTransfer (msg : RequestStateTransferMessage)
  | stateTransfer (msg : StateTransferMessage)
  | startViewChange (msg : StartViewChangeMessage n)
  | doViewChange (msg : DoViewChangeMessage n)
  | startView (msg : StartViewMessage)
  deriving DecidableEq, Repr

-- The application above a replica (replication/common/replica.h), with the state
-- its upcalls read and change.
structure AppReplica (σ : Type) where
  leaderUpcall : σ → Nat → String → σ × Bool × String
  replicaUpcall : σ → Nat → String → σ × String
  unloggedUpcall : σ → String → σ × String

structure Env (σ : Type) where
  config : Configuration
  batchSize : Nat
  app : AppReplica σ

inductive ReplicaStatus where
  | normal
  | viewChange
  | recovering
  deriving DecidableEq, Repr

structure ClientTableEntry where
  lastReqId : Nat
  replied : Bool
  reply : ReplyMessage
  deriving DecidableEq, Repr, Inhabited

-- A VRReplica. The five timers are kept as whether they are armed. `executed` and
-- `entered` only record what happened: the upcalls made by Execute and the views
-- in which the replica has been NORMAL. `panicked` marks a process that has called
-- Panic (or dereferenced a null entry) and is gone.
structure Replica (n : Nat) (σ : Type) where
  status : ReplicaStatus
  view : Nat
  lastOp : Nat
  lastCommitted : Nat
  lastRequestStateTransferView : Nat
  lastRequestStateTransferOpnum : Nat
  pendingPrepares : List (Address n × PrepareMessage)
  lastPrepare : PrepareMessage
  lastBatchEnd : Nat
  log : Log
  clientAddresses : Nat → Option (Address n)
  clientTable : Nat → Option ClientTableEntry
  prepareOKQuorum : QuorumSet Viewstamp n (PrepareOKMessage n)
  startViewChangeQuorum : QuorumSet Nat n (StartViewChangeMessage n)
  doViewChangeQuorum : QuorumSet Nat n (DoViewChangeMessage n)
  viewChangeTimeout : Bool
  nullCommitTimeout : Bool
  stateTransferTimeout : Bool
  resendPrepareTimeout : Bool
  closeBatchTimeout : Bool
  app : σ
  executed : List (Nat × Request)
  entered : List Nat
  panicked : Bool

structure Effect (n : Nat) (σ : Type) where
  replica : Replica n σ
  sent : List (Packet n (Message n))

-- Nothing runs after a panic; what was done and sent before it stays.
def Effect.andThen (e : Effect n σ) (next : Replica n σ → Effect n σ) : Effect n σ :=
  if e.replica.panicked then e else ⟨(next e.replica).replica,e.sent ++ (next e.replica).sent⟩

section
variable (env : Env σ) (me : Fin env.config.n)

def Replica.new (app : σ) : Replica env.config.n σ where
  status := .normal
  view := 0
  lastOp := 0
  lastCommitted := 0
  lastRequestStateTransferView := 0
  lastRequestStateTransferOpnum := 0
  pendingPrepares := []
  lastPrepare := default
  lastBatchEnd := 0
  log := {}
  clientAddresses := fun _ => none
  clientTable := fun _ => none
  prepareOKQuorum := .new (env.config.quorumSize - 1)
  startViewChangeQuorum := .new (env.config.quorumSize - 1)
  doViewChangeQuorum := .new (env.config.quorumSize - 1)
  viewChangeTimeout := env.config.getLeaderIndex 0 ≠ me
  nullCommitTimeout := env.config.getLeaderIndex 0 = me
  stateTransferTimeout := true
  resendPrepareTimeout := false
  closeBatchTimeout := false
  app := app
  executed := []
  entered := [0]
  panicked := false

abbrev Replica.AmLeader (r : Replica env.config.n σ) : Prop := env.config.getLeaderIndex r.view = me

def toAll (msg : Message env.config.n) : List (Packet env.config.n (Message env.config.n)) :=
  sendMessageToAll (.replica me) msg

def toLeader (view : Nat) (msg : Message env.config.n) : Packet env.config.n (Message env.config.n) :=
  ⟨.replica me,.replica (env.config.getLeaderIndex view),msg⟩

def Replica.panic (r : Replica n σ) : Effect n σ := ⟨{r with panicked := true},[]⟩

def commitNext (r : Replica env.config.n σ) : Effect env.config.n σ :=
  match r.log.find (r.lastCommitted + 1) with
  | none => ({r with lastCommitted := r.lastCommitted + 1} : Replica _ σ).panic
  | some entry =>
    let res := env.app.replicaUpcall r.app (r.lastCommitted + 1) entry.request.op
    let reply : ReplyMessage :=
      ⟨entry.viewstamp.view,entry.viewstamp.opnum,entry.request.clientreqid,res.2⟩
    let cte := (r.clientTable entry.request.clientid).getD default
    let stored := if cte.lastReqId ≤ entry.request.clientreqid then ⟨entry.request.clientreqid,true,reply⟩ else cte
    ⟨{r with
        lastCommitted := r.lastCommitted + 1
        app := res.1
        executed := r.executed ++ [(r.lastCommitted + 1,entry.request)]
        log := r.log.setStatus (r.lastCommitted + 1) .committed
        clientTable := update r.clientTable entry.request.clientid (some stored)},
      match r.clientAddresses entry.request.clientid with
      | some address => [⟨.replica me,address,.reply reply⟩]
      | none => []⟩

def commitLoop : Nat → Replica env.config.n σ → Effect env.config.n σ
  | 0,r => ⟨r,[]⟩
  | k+1,r => (commitNext env me r).andThen (commitLoop k)

def commitUpTo (r : Replica env.config.n σ) (upto : Nat) : Effect env.config.n σ :=
  commitLoop env me (upto - r.lastCommitted) r

def updateClientTable (r : Replica n σ) (req : Request) : Replica n σ :=
  let entry := (r.clientTable req.clientid).getD default
  let stored := if entry.lastReqId = req.clientreqid then entry else ⟨req.clientreqid,false,default⟩
  {r with clientTable := update r.clientTable req.clientid (some stored)}

def sendPrepareOK (r : Replica env.config.n σ) (i : Nat) : Effect env.config.n σ :=
  if i ≤ r.lastCommitted then ⟨r,[]⟩ else
  match r.log.find i with
  | none => r.panic
  | some entry => ⟨updateClientTable r entry.request,[toLeader env me r.view (.prepareOK ⟨r.view,i,me⟩)]⟩

def sendPrepareOKsLoop : List Nat → Replica env.config.n σ → Effect env.config.n σ
  | [],r => ⟨r,[]⟩
  | i :: rest,r => (sendPrepareOK env me r i).andThen (sendPrepareOKsLoop rest)

section
variable (r : Replica env.config.n σ)

def sendPrepareOKs (oldLastOp : Nat) : Effect env.config.n σ :=
  sendPrepareOKsLoop env me (List.range' oldLastOp (r.lastOp + 1 - oldLastOp)) r

def requestStateTransfer : Effect env.config.n σ :=
  if r.lastRequestStateTransferOpnum ≠ 0 ∧ r.lastRequestStateTransferView = r.view ∧
      r.lastRequestStateTransferOpnum = r.lastCommitted then ⟨r,[]⟩
  else
    ⟨{r with
        lastRequestStateTransferView := r.view
        lastRequestStateTransferOpnum := r.lastCommitted},
      toAll env me (.requestStateTransfer ⟨r.view,r.lastCommitted⟩)⟩

-- `lastBatchEnd` is taken from `lastOp` as it stands here; both callers that
-- install a new log set `lastOp` only after this.
def enterView (newview : Nat) : Replica env.config.n σ :=
  let leader : Bool := env.config.getLeaderIndex newview = me
  {r with
    view := newview
    status := .normal
    entered := newview :: r.entered
    lastBatchEnd := r.lastOp
    viewChangeTimeout := !leader
    nullCommitTimeout := leader
    resendPrepareTimeout := leader && r.resendPrepareTimeout
    closeBatchTimeout := leader && r.closeBatchTimeout
    prepareOKQuorum := r.prepareOKQuorum.clear
    startViewChangeQuorum := r.startViewChangeQuorum.clear
    doViewChangeQuorum := r.doViewChangeQuorum.clear}

def startViewChange (newview : Nat) : Effect env.config.n σ :=
  ⟨{r with
      view := newview
      status := .viewChange
      viewChangeTimeout := true
      nullCommitTimeout := false
      resendPrepareTimeout := false
      closeBatchTimeout := false},
    toAll env me (.startViewChange ⟨newview,me,r.lastCommitted⟩)⟩

def sendNullCommit : Effect env.config.n σ :=
  ⟨r,toAll env me (.commit ⟨r.view,r.lastCommitted⟩)⟩

def resendPrepare : Effect env.config.n σ :=
  if r.lastOp = r.lastCommitted then ⟨r,[]⟩ else ⟨r,toAll env me (.prepare r.lastPrepare)⟩

def closeBatch : Effect env.config.n σ :=
  let batchStart := r.lastBatchEnd + 1
  match (List.range' batchStart (r.lastOp + 1 - batchStart)).mapM r.log.find with
  | none => r.panic
  | some entries =>
    let p : PrepareMessage := ⟨r.view,r.lastOp,batchStart,entries.map LogEntry.request⟩
    ⟨{r with
        lastPrepare := p
        lastBatchEnd := r.lastOp
        resendPrepareTimeout := true
        closeBatchTimeout := false},
      toAll env me (.prepare p)⟩

end

-- `lastOp - lastBatchEnd+1` is computed in 64-bit unsigned arithmetic.
@[irreducible] def batchIsFull (r : Replica n σ) (batchSize : Nat) : Bool :=
  (r.lastOp + 2^64 - r.lastBatchEnd + 1) % 2^64 > batchSize

section
variable (r : Replica env.config.n σ) (remote : Address env.config.n) (req : Request)

-- The client table's say on a request: `some` is what it answers to a request it
-- has seen (nothing for a stale one or one still waiting), `none` lets it through.
def clientTableAnswer :
    Option (List (Packet env.config.n (Message env.config.n))) :=
  match r.clientTable req.clientid with
  | none => none
  | some entry =>
    if req.clientreqid < entry.lastReqId then some []
    else if req.clientreqid = entry.lastReqId then
      if entry.replied then some [⟨.replica me,remote,.reply entry.reply⟩] else some []
    else none

def logRequest (request : Request) : Effect env.config.n σ :=
  let r := {r with
    lastOp := r.lastOp + 1
    log := r.log.append ⟨r.view,r.lastOp + 1⟩ request .prepared}
  let closed : Effect env.config.n σ :=
    if batchIsFull r env.batchSize then closeBatch env me r
    else ⟨{r with closeBatchTimeout := true},[]⟩
  closed.andThen fun r => ⟨{r with nullCommitTimeout := true},[]⟩

def handleRequest :
    Effect env.config.n σ :=
  if r.status ≠ .normal then ⟨r,[]⟩
  else if ¬ r.AmLeader env me then ⟨r,[]⟩
  else
    let r := {r with clientAddresses := update r.clientAddresses req.clientid (some remote)}
    match clientTableAnswer env me r remote req with
    | some answer => ⟨r,answer⟩
    | none =>
      let r := updateClientTable r req
      let up := env.app.leaderUpcall r.app r.lastCommitted req.op
      let r := {r with app := up.1}
      if up.2.1 = false then
        let reply : ReplyMessage := ⟨0,0,req.clientreqid,up.2.2⟩
        let cte := (r.clientTable req.clientid).getD default
        ⟨{r with clientTable := update r.clientTable req.clientid (some {cte with replied := true, reply := reply})},
          [⟨.replica me,remote,.reply reply⟩]⟩
      else logRequest env me r ⟨up.2.2,req.clientid,req.clientreqid⟩

def handleUnloggedRequest :
    Effect env.config.n σ :=
  if r.status ≠ .normal then ⟨r,[]⟩
  else
    let res := env.app.unloggedUpcall r.app req.op
    ⟨{r with app := res.1},[⟨.replica me,remote,.unloggedReply res.2 req.clientreqid⟩]⟩

end

def prepareLoop (view : Nat) : Nat → List Request → Replica n σ → Replica n σ
  | _,[],r => r
  | op,req :: rest,r =>
    if op + 1 ≤ r.lastOp then prepareLoop view (op+1) rest r
    else
      prepareLoop view (op+1) rest (updateClientTable {r with
        lastOp := r.lastOp + 1
        log := r.log.append ⟨view,op+1⟩ req .prepared} req)

section
variable (r : Replica env.config.n σ)

def handlePrepare (remote : Address env.config.n) (msg : PrepareMessage) :
    Effect env.config.n σ :=
  if r.status ≠ .normal then ⟨r,[]⟩
  else if msg.view < r.view then ⟨r,[]⟩
  else if msg.view > r.view then
    (requestStateTransfer env me r).andThen fun r =>
      ⟨{r with pendingPrepares := r.pendingPrepares ++ [(remote,msg)]},[]⟩
  else if r.AmLeader env me then r.panic
  else
    let r := {r with viewChangeTimeout := true}
    let ok := toLeader env me r.view (.prepareOK ⟨msg.view,msg.opnum,me⟩)
    if msg.opnum ≤ r.lastOp then ⟨r,[ok]⟩
    else if msg.batchstart > r.lastOp + 1 then
      (requestStateTransfer env me r).andThen fun r =>
        ⟨{r with pendingPrepares := r.pendingPrepares ++ [(remote,msg)]},[]⟩
    else ⟨prepareLoop msg.view (msg.batchstart - 1) msg.request r,[ok]⟩

def handlePrepareOK (msg : PrepareOKMessage env.config.n) : Effect env.config.n σ :=
  if r.status ≠ .normal then ⟨r,[]⟩
  else if msg.view < r.view then ⟨r,[]⟩
  else if msg.view > r.view then requestStateTransfer env me r
  else if ¬ r.AmLeader env me then ⟨r,[]⟩
  else
    let added := r.prepareOKQuorum.addAndCheckForQuorum ⟨msg.view,msg.opnum⟩ msg.replicaIdx msg
    let r := {r with prepareOKQuorum := added.1}
    match added.2 with
    | none => ⟨r,[]⟩
    | some msgs =>
      (commitUpTo env me r msg.opnum).andThen fun r =>
        if msgs.size ≥ env.config.quorumSize then ⟨r,[]⟩
        else ⟨{r with nullCommitTimeout := true},toAll env me (.commit ⟨r.view,r.lastCommitted⟩)⟩

def handleCommit (msg : CommitMessage) : Effect env.config.n σ :=
  if r.status ≠ .normal then ⟨r,[]⟩
  else if msg.view < r.view then ⟨r,[]⟩
  else if msg.view > r.view then requestStateTransfer env me r
  else if r.AmLeader env me then r.panic
  else
    let r := {r with viewChangeTimeout := true}
    if msg.opnum ≤ r.lastCommitted then ⟨r,[]⟩
    else if msg.opnum > r.lastOp then requestStateTransfer env me r
    else commitUpTo env me r msg.opnum

def handleRequestStateTransfer (remote : Address env.config.n)
    (msg : RequestStateTransferMessage) : Effect env.config.n σ :=
  if r.status ≠ .normal then ⟨r,[]⟩
  else if msg.view > r.view then requestStateTransfer env me r
  else ⟨r,[⟨.replica me,remote,.stateTransfer ⟨r.view,r.lastCommitted,r.log.dump (msg.opnum + 1)⟩⟩]⟩

end

-- The loop of HandleStateTransfer; it also carries `oldLastOp`.
def transferLoop : List LogEntry → Nat → Replica n σ → Nat × Effect n σ
  | [],oldLastOp,r => (oldLastOp,⟨r,[]⟩)
  | new :: rest,oldLastOp,r =>
    if new.viewstamp.opnum ≤ r.lastCommitted then transferLoop rest oldLastOp r
    else if new.viewstamp.opnum ≤ r.lastOp then
      match r.log.find new.viewstamp.opnum with
      | none => (oldLastOp,r.panic)
      | some entry =>
        if entry.viewstamp.view = new.viewstamp.view then transferLoop rest oldLastOp r
        else
          transferLoop rest new.viewstamp.opnum {r with
            lastOp := new.viewstamp.opnum
            log := (r.log.removeAfter new.viewstamp.opnum).append new.viewstamp new.request .prepared}
    else
      transferLoop rest oldLastOp {r with
        lastOp := r.lastOp + 1
        log := r.log.append new.viewstamp new.request .prepared}

section
variable (r : Replica env.config.n σ)

-- The saved prepares are copied aside and the list cleared, but the loop that
-- should replay them walks the cleared list, so none is.
def handleStateTransfer (msg : StateTransferMessage) : Effect env.config.n σ :=
  if msg.view < r.view then ⟨r,[]⟩
  else
    let merged := transferLoop msg.entries r.lastOp r
    merged.2.andThen fun r =>
      let r := if msg.view > r.view then enterView env me r msg.view else r
      ((commitUpTo env me r msg.opnum).andThen fun r => sendPrepareOKs env me r merged.1).andThen fun r =>
        ⟨{r with pendingPrepares := []},[]⟩

def minCommitted (counts : List Nat) (stray : Nat) : Nat := counts.min?.getD stray

def joinViewChange (view : Nat) : Effect env.config.n σ :=
  if r.status ≠ .viewChange ∨ view > r.view then startViewChange env me r view else ⟨r,[]⟩

def collectStartViewChange (msg : StartViewChangeMessage env.config.n) :
    Effect env.config.n σ :=
  let added := r.startViewChangeQuorum.addAndCheckForQuorum msg.view msg.replicaIdx msg
  let r := {r with startViewChangeQuorum := added.1}
  match added.2 with
  | none => ⟨r,[]⟩
  | some msgs =>
    if env.config.getLeaderIndex r.view = me then ⟨r,[]⟩
    else
      let least := min (minCommitted (msgs.entries.map (fun kv => kv.2.lastCommitted)) r.lastCommitted) r.lastCommitted
      ⟨r,[toLeader env me r.view (.doViewChange
        ⟨r.view,r.log.lastViewstamp.view,r.lastOp,r.lastCommitted,r.log.dump least,me⟩)]⟩

def handleStartViewChange (msg : StartViewChangeMessage env.config.n) :
    Effect env.config.n σ :=
  if msg.view < r.view then ⟨r,[]⟩
  else if msg.view = r.view ∧ r.status ≠ .viewChange then ⟨r,[]⟩
  else (joinViewChange env me r msg.view).andThen fun r => collectStartViewChange env me r msg

end

-- What is read where nothing lives: a committed opnum behind the end iterator of an
-- empty map, and a message behind latestMsg, which points to the loop's own copy.
structure Stray (n : Nat) where
  least : Nat
  latest : DoViewChangeMessage n
  deriving DecidableEq, Repr

-- `msg` is the message whose copy latestMsg points to, `none` its NULL.
structure Latest (n : Nat) where
  view : Nat
  op : Nat
  msg : Option (DoViewChangeMessage n)

def findLatest (own : Viewstamp) (msgs : List (Fin n × DoViewChangeMessage n)) : Latest n :=
  msgs.foldl (fun best kv =>
    if kv.2.lastNormalView > best.view ∨ kv.2.lastNormalView = best.view ∧ kv.2.lastOp > best.op
    then ⟨kv.2.lastNormalView,kv.2.lastOp,some kv.2⟩ else best) ⟨own.view,own.opnum,none⟩

def Latest.read (latest : Latest n) (stray : Stray n) : Option (DoViewChangeMessage n) :=
  latest.msg.map fun _ => stray.latest

-- Installing the chosen log; `none` is the Panic for a log that starts too late.
def installLatest (r : Replica n σ) (msg : Option (DoViewChangeMessage n)) : Option Log :=
  match msg with
  | none => some r.log
  | some latest =>
    match latest.entries with
    | [] => some r.log
    | first :: _ =>
      if first.viewstamp.opnum > r.lastCommitted + 1 then none
      else some ((r.log.removeAfter (latest.lastOp + 1)).install latest.entries)

section
variable (r : Replica env.config.n σ)

def commitLatest : Option (DoViewChangeMessage env.config.n) → Effect env.config.n σ
  | none => ⟨r,[]⟩
  | some latest => commitUpTo env me r latest.lastCommitted

-- The new leader with its quorum. With no StartViewChange stored for the view, the
-- smallest committed opnum of those messages is read through the end iterator.
def startNewView (view : Nat) (msgs : OrdMap (Fin env.config.n) (DoViewChangeMessage env.config.n))
    (stray : Stray env.config.n) : Effect env.config.n σ :=
  let latest := findLatest r.log.lastViewstamp msgs.entries
  match installLatest r (latest.read stray) with
  | none => r.panic
  | some log =>
    let svcs := (r.startViewChangeQuorum.getMessages r.view).entries.map (fun kv => kv.2.lastCommitted)
    let dvcs := msgs.entries.map (fun kv => kv.2.lastCommitted)
    let least := min (min (minCommitted svcs stray.least) (minCommitted dvcs stray.least)) r.lastCommitted
    let r := {enterView env me {r with log := log} view with lastOp := latest.op}
    (commitLatest env me r (latest.read stray)).andThen fun r =>
      ⟨r,toAll env me (.startView ⟨r.view,r.lastOp,r.lastCommitted,r.log.dump least⟩)⟩

section
variable (msg : DoViewChangeMessage env.config.n) (stray : Stray env.config.n)

def collectDoViewChange :
    Effect env.config.n σ :=
  let added := r.doViewChangeQuorum.addAndCheckForQuorum msg.view msg.replicaIdx msg
  let r := {r with doViewChangeQuorum := added.1}
  match added.2 with
  | none => ⟨r,[]⟩
  | some msgs => startNewView env me r msg.view msgs stray

def handleDoViewChange :
    Effect env.config.n σ :=
  if msg.view < r.view then ⟨r,[]⟩
  else if msg.view = r.view ∧ r.status ≠ .viewChange then ⟨r,[]⟩
  else (joinViewChange env me r msg.view).andThen fun r => collectDoViewChange env me r msg stray

end

def handleStartView (msg : StartViewMessage) : Effect env.config.n σ :=
  if msg.view < r.view then ⟨r,[]⟩
  else if msg.view = r.view ∧ r.status ≠ .viewChange then ⟨r,[]⟩
  else
    let installed : Option Log :=
      match msg.entries with
      | [] => some r.log
      | first :: _ =>
        if first.viewstamp.opnum > r.lastCommitted + 1 then none
        else some ((r.log.removeAfter (msg.lastOp + 1)).install msg.entries)
    match installed with
    | none => r.panic
    | some log =>
      let oldLastOp := r.lastOp
      let r := {enterView env me {r with log := log} msg.view with lastOp := msg.lastOp}
      (commitUpTo env me r msg.lastCommitted).andThen fun r => sendPrepareOKs env me r oldLastOp

def receiveMessage (remote : Address env.config.n) (stray : Stray env.config.n) :
    Message env.config.n → Effect env.config.n σ
  | .request req => handleRequest env me r remote req
  | .unloggedRequest req => handleUnloggedRequest env me r remote req
  | .prepare msg => handlePrepare env me r remote msg
  | .prepareOK msg => handlePrepareOK env me r msg
  | .commit msg => handleCommit env me r msg
  | .requestStateTransfer msg => handleRequestStateTransfer env me r remote msg
  | .stateTransfer msg => handleStateTransfer env me r msg
  | .startViewChange msg => handleStartViewChange env me r msg
  | .doViewChange msg => handleDoViewChange env me r msg stray
  | .startView msg => handleStartView env me r msg
  | .reply _ => r.panic
  | .unloggedReply _ _ => r.panic

end

end
end DbExp.Tapir.Vr
