import DbExp.Tapir.IrReplica

namespace DbExp.Tapir.Ir
open Function

inductive ErrorCode where
  | timeout
  | mismatchedConsensusViews
  deriving DecidableEq, Repr

-- replication/ir/client.h. The timer of a request resends its proposal until the
-- request is `confirming`, its finalize message from then on; an unlogged request is
-- given up instead.
structure ConsensusPart (n : Nat) where
  consensusReplyQuorum : QuorumSet Nat n (ReplyConsensusMessage n)
  decide : OrdMap String Nat → String
  decideResult : String := ""
  quorumSize : Nat
  superQuorumSize : Nat
  onSlowPath : Bool := false
  transitionToSlowPathTimer : Bool := true
  replyConsensusView : Nat := 0
  sentConfirms : Bool := false

inductive PendingKind (n : Nat) where
  | unlogged
  | inconsistent (inconsistentReplyQuorum : QuorumSet Viewstamp n (ReplyInconsistentMessage n))
  | consensus (part : ConsensusPart n)

structure PendingRequest (n : Nat) where
  request : String
  clientReqId : Nat
  continuationInvoked : Bool := false
  confirming : Bool := false
  confirmQuorum : QuorumSet Viewstamp n (ConfirmMessage n)
  kind : PendingKind n

structure Completion where
  reqId : Nat
  view : Nat
  result : Except ErrorCode String

inductive RequestType where
  | unlogged
  | logged (type : RecordEntryType)
  deriving DecidableEq, Repr

def PendingRequest.type (req : PendingRequest n) : RequestType :=
  match req.kind with
  | .unlogged => .unlogged
  | .inconsistent _ => .logged .inconsistent
  | .consensus _ => .logged .consensus

-- `issued` and `completed` only record what was invoked and what came back.
structure Client (n : Nat) where
  lastReqId : Nat := 0
  pendingReqs : Nat → Option (PendingRequest n) := fun _ => none
  issued : Nat → Option (RequestType × String) := fun _ => none
  completed : List Completion := []
  panicked : Bool := false

abbrev ClientEffect (n : Nat) := Client n × List (Packet n (Message n))

namespace Client

section
variable (c : Client n)

def put (req : PendingRequest n) : Client n :=
  {c with pendingReqs := update c.pendingReqs req.clientReqId (some req)}

def drop (reqId : Nat) : Client n := {c with pendingReqs := update c.pendingReqs reqId none}

def complete (reqId view : Nat) (result : Except ErrorCode String) : Client n :=
  {c with completed := c.completed ++ [⟨reqId,view,result⟩]}

def panic : Client n := {c with panicked := true}

def issue (req : PendingRequest n) : Client n :=
  {c with
    lastReqId := c.lastReqId + 1
    pendingReqs := update c.pendingReqs req.clientReqId (some req)
    issued := update c.issued req.clientReqId (some (req.type,req.request))}

@[simp] theorem put_pendingReqs (req : PendingRequest n) (k : Nat) :
    (c.put req).pendingReqs k = if k = req.clientReqId then some req else c.pendingReqs k := update_apply ..

@[simp] theorem drop_pendingReqs (reqId k : Nat) :
    (c.drop reqId).pendingReqs k = if k = reqId then none else c.pendingReqs k := update_apply ..

end

section
variable (config : Configuration) (clientid : Nat)

def sendInconsistent (req : PendingRequest n) : List (Packet n (Message n)) :=
  sendMessageToAll (.client clientid) (.proposeInconsistent ⟨req.request,clientid,req.clientReqId⟩)

def sendConsensus (req : PendingRequest n) : List (Packet n (Message n)) :=
  sendMessageToAll (.client clientid) (.proposeConsensus ⟨req.request,clientid,req.clientReqId⟩)

def invokeInconsistent (c : Client config.n) (request : String) : ClientEffect config.n :=
  let req : PendingRequest config.n :=
    {request, clientReqId := c.lastReqId + 1, confirmQuorum := .new config.quorumSize, kind := .inconsistent (.new config.quorumSize)}
  (c.issue req,sendInconsistent clientid req)

def invokeConsensus (c : Client config.n) (request : String) (decide : OrdMap String Nat → String) : ClientEffect config.n :=
  let part : ConsensusPart config.n :=
    {consensusReplyQuorum := .new config.quorumSize, decide, quorumSize := config.quorumSize, superQuorumSize := config.fastQuorumSize}
  let req : PendingRequest config.n :=
    {request, clientReqId := c.lastReqId + 1, confirmQuorum := .new config.quorumSize, kind := .consensus part}
  (c.issue req,sendConsensus clientid req)

def invokeUnlogged (c : Client config.n) (replicaIdx : Fin config.n) (request : String) : ClientEffect config.n :=
  let req : PendingRequest config.n :=
    {request, clientReqId := c.lastReqId + 1, confirmQuorum := .new 1, kind := .unlogged}
  (c.issue req,[⟨.client clientid,.replica replicaIdx,.unloggedRequest ⟨request,clientid,c.lastReqId + 1⟩⟩])

def sendFinalizeConsensus (req : PendingRequest n) (part : ConsensusPart n) : List (Packet n (Message n)) :=
  sendMessageToAll (.client clientid) (.finalizeConsensus ⟨clientid,req.clientReqId⟩ part.decideResult)

-- What a request's timer does: ResendInconsistent, ResendConsensus, ResendConfirmation
-- or UnloggedRequestTimeoutCallback.
def requestTimeout (c : Client n) (req : PendingRequest n) : ClientEffect n :=
  match req.kind with
  | .unlogged => ((c.drop req.clientReqId).complete req.clientReqId 0 (.error .timeout),[])
  | .inconsistent _ =>
    (c,if req.confirming then sendMessageToAll (.client clientid) (.finalizeInconsistent ⟨clientid,req.clientReqId⟩)
      else sendInconsistent clientid req)
  | .consensus part => (c,if req.confirming then sendFinalizeConsensus clientid req part else sendConsensus clientid req)

def replyCounts (msgs : OrdMap (Fin n) (ReplyConsensusMessage n)) : OrdMap String Nat :=
  .tally (msgs.entries.map (fun p => p.2.result))

def replyView (msgs : OrdMap (Fin n) (ReplyConsensusMessage n)) : Nat :=
  msgs.entries.foldl (fun view p => if view = 0 then p.2.view else view) 0

def handleSlowPathConsensus (c : Client n) (req : PendingRequest n) (part : ConsensusPart n)
    (msgs : OrdMap (Fin n) (ReplyConsensusMessage n)) (finalizedResultFound : Bool) : ClientEffect n :=
  let part := if finalizedResultFound then part else {part with
    decideResult := part.decide (replyCounts msgs)
    replyConsensusView := replyView msgs}
  (c.put {req with
      confirming := true
      kind := .consensus {part with sentConfirms := true}},
    sendFinalizeConsensus clientid req part)

-- The transition timer keeps running when the fast path succeeds.
def handleFastPathConsensus (c : Client n) (req : PendingRequest n) (part : ConsensusPart n) (view : Nat)
    (msgs : OrdMap (Fin n) (ReplyConsensusMessage n)) : ClientEffect n :=
  match (replyCounts msgs).entries.find? (fun result => part.superQuorumSize ≤ result.2) with
  | some (result,_) =>
    let part := {part with decideResult := result}
    let c := c.put {req with
      confirming := true
      continuationInvoked := true
      kind := .consensus {part with sentConfirms := true}}
    (if req.continuationInvoked then c else c.complete req.clientReqId view (.ok result),
      sendFinalizeConsensus clientid req part)
  | none =>
    handleSlowPathConsensus clientid c req {part with
      onSlowPath := true
      transitionToSlowPathTimer := false} msgs false

def transitionToConsensusSlowPath (c : Client n) (req : PendingRequest n) (part : ConsensusPart n) : ClientEffect n :=
  let part := {part with
    onSlowPath := true
    transitionToSlowPathTimer := false}
  match part.consensusReplyQuorum.checkForAnyQuorum with
  | some quorum => handleSlowPathConsensus clientid c req part quorum false
  | none => (c.put {req with kind := .consensus part},[])

-- A cast to the wrong kind of request gives a null pointer that is then followed.
def handleInconsistentReply (c : Client n) (msg : ReplyInconsistentMessage n) : ClientEffect n :=
  let reqId := msg.opid.clientreqid
  match c.pendingReqs reqId with
  | none => (c,[])
  | some req =>
    match req.kind with
    | .inconsistent quorum =>
      let added := quorum.addAndCheckForQuorum ⟨msg.view,reqId⟩ msg.replicaIdx msg
      let req := {req with kind := .inconsistent added.1}
      if added.2.isSome ∧ req.continuationInvoked = false then
        ((c.put {req with
            confirming := true
            continuationInvoked := true}).complete reqId msg.view (.ok ""),
          sendMessageToAll (.client clientid) (.finalizeInconsistent msg.opid))
      else (c.put req,[])
    | _ => (c.panic,[])

def handleConsensusReply (c : Client n) (msg : ReplyConsensusMessage n) : ClientEffect n :=
  match c.pendingReqs msg.opid.clientreqid with
  | none => (c,[])
  | some req =>
    match req.kind with
    | .consensus part =>
      if part.sentConfirms then (c,[])
      else
        let part := {part with consensusReplyQuorum := part.consensusReplyQuorum.add msg.view msg.replicaIdx msg}
        let msgs := part.consensusReplyQuorum.getMessages msg.view
        if msg.finalized then
          handleSlowPathConsensus clientid c req {part with
            onSlowPath := true
            transitionToSlowPathTimer := false
            decideResult := msg.result
            replyConsensusView := msg.view} msgs true
        else if part.onSlowPath ∧ part.quorumSize ≤ msgs.size then handleSlowPathConsensus clientid c req part msgs false
        else if part.onSlowPath = false ∧ part.superQuorumSize ≤ msgs.size then
          handleFastPathConsensus clientid c req part msg.view msgs
        else (c.put {req with kind := .consensus part},[])
    | _ => (c.panic,[])

def handleConfirm (c : Client n) (msg : ConfirmMessage n) : Client n :=
  let reqId := msg.opid.clientreqid
  match c.pendingReqs reqId with
  | none => c
  | some req =>
    let added := req.confirmQuorum.addAndCheckForQuorum ⟨msg.view,reqId⟩ msg.replicaIdx msg
    if added.2.isNone then c.put {req with confirmQuorum := added.1}
    else if req.continuationInvoked then c.drop reqId
    else
      match req.kind with
      | .consensus part =>
        (c.drop reqId).complete reqId msg.view
          (if msg.view = part.replyConsensusView then .ok part.decideResult else .error .mismatchedConsensusViews)
      | _ => c.panic

def handleUnloggedReply (c : Client n) (reqId : Nat) (reply : String) : Client n :=
  match c.pendingReqs reqId with
  | none => c
  | some _ => (c.drop reqId).complete reqId 0 (.ok reply)

def receiveMessage (c : Client n) : Message n → ClientEffect n
  | .replyInconsistent msg => handleInconsistentReply clientid c msg
  | .replyConsensus msg => handleConsensusReply clientid c msg
  | .confirm msg => (handleConfirm c msg,[])
  | .unloggedReply reply clientreqid => (handleUnloggedReply c clientreqid reply,[])
  | _ => (c.panic,[])

end
end Client
end DbExp.Tapir.Ir
