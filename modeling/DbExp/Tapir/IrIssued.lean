import DbExp.Tapir.IrSystem
import DbExp.Tapir.IrMerge

namespace DbExp.Tapir.Ir
open Function List

-- Every request id of a client stands for one request of one type. The packets,
-- pending requests and records that mention it all agree on which.
abbrev Ledger := Nat → Nat → Option (RequestType × String)

def Ledger.Has (ledger : Ledger) (op : Opid) (type : RecordEntryType) : Prop :=
  ∃ request, ledger op.clientid op.clientreqid = some (.logged type,request)

def RecordIssued (ledger : Ledger) (r : Record) : Prop :=
  ∀ op e, r.find op = some e → ledger op.clientid op.clientreqid = some (.logged e.type,e.request.op)

def PacketIssued (ledger : Ledger) (p : Packet n (Message n)) : Prop :=
  match p.msg with
  | .proposeInconsistent req =>
    p.src = .client req.clientid ∧ ledger req.clientid req.clientreqid = some (.logged .inconsistent,req.op)
  | .proposeConsensus req =>
    p.src = .client req.clientid ∧ ledger req.clientid req.clientreqid = some (.logged .consensus,req.op)
  | .unloggedRequest req => p.src = .client req.clientid ∧ ledger req.clientid req.clientreqid = some (.unlogged,req.op)
  | .unloggedReply _ clientreqid => ∃ id request, p.dst = .client id ∧ ledger id clientreqid = some (.unlogged,request)
  | .replyInconsistent msg => p.dst = .client msg.opid.clientid ∧ ledger.Has msg.opid .inconsistent
  | .replyConsensus msg => p.dst = .client msg.opid.clientid ∧ ledger.Has msg.opid .consensus
  | .finalizeInconsistent opid => p.src = .client opid.clientid ∧ ledger.Has opid .inconsistent
  | .finalizeConsensus opid _ => p.src = .client opid.clientid ∧ ledger.Has opid .consensus
  | .confirm msg => p.dst = .client msg.opid.clientid
  | .doViewChange msg => ∀ r, msg.record = some r → RecordIssued ledger r
  | .startView msg => RecordIssued ledger msg.record

def ReplicaIssued (ledger : Ledger) (r : Replica n σ) : Prop :=
  RecordIssued ledger r.record ∧
  ∀ view j msg rec, r.doViewChangeQuorum.Stored view j msg → msg.record = some rec → RecordIssued ledger rec

structure ClientIssued (ledger : Ledger) (id : Nat) (c : Client n) : Prop where
  own : ledger id = c.issued
  fresh : ∀ k, c.lastReqId < k → c.issued k = none
  pending : ∀ k req, c.pendingReqs k = some req → req.clientReqId = k ∧ c.issued k = some (req.type,req.request)
  past : ∀ done ∈ c.completed, done.reqId ≤ c.lastReqId

section
variable {ledger : Ledger} {id : Nat} {c : Client n}

theorem PendingRequest.type_consensus {req : PendingRequest n} (kind : req.kind = .consensus part) :
    req.type = .logged .consensus := by
  unfold PendingRequest.type; rw [kind]

theorem PendingRequest.type_inconsistent {req : PendingRequest n} (kind : req.kind = .inconsistent quorum) :
    req.type = .logged .inconsistent := by
  unfold PendingRequest.type; rw [kind]

def ClientEffectIssued (ledger : Ledger) (id : Nat) (e : ClientEffect n) : Prop :=
  ClientIssued ledger id e.1 ∧ ∀ p ∈ e.2, PacketIssued ledger p

-- What holds after every change a consensus request goes through: of the client when
-- the request is replaced and its continuation run, and of the packets sent for it.
structure Client.Upholds (C : Client n → Prop) (N : Packet n (Message n) → Prop) (id : Nat) (c : Client n) (req : PendingRequest n) :
    Prop where
  put : ∀ confirming invoked part, C (c.put {req with confirming := confirming, continuationInvoked := invoked, kind := .consensus part})
  complete : ∀ part view result, C ((c.put {req with
      confirming := true
      continuationInvoked := true
      kind := .consensus part}).complete req.clientReqId view result)
  sends : ∀ part, ∀ p ∈ Client.sendFinalizeConsensus id req part, N p

section
variable {C : Client n → Prop} {N : Packet n (Message n) → Prop}

theorem Client.Upholds.transition (upholds : Upholds C N id c req) (part : ConsensusPart n) :
    C (transitionToConsensusSlowPath id c req part).1 ∧ ∀ p ∈ (transitionToConsensusSlowPath id c req part).2, N p := by
  unfold transitionToConsensusSlowPath
  dsimp only
  split
  · exact ⟨upholds.put ..,upholds.sends _⟩
  · exact ⟨upholds.put ..,by simp⟩

theorem Client.Upholds.fastPath (upholds : Upholds C N id c req) (part : ConsensusPart n) (view : Nat)
    (msgs : OrdMap (Fin n) (ReplyConsensusMessage n)) :
    C (handleFastPathConsensus id c req part view msgs).1 ∧ ∀ p ∈ (handleFastPathConsensus id c req part view msgs).2, N p := by
  unfold handleFastPathConsensus
  split
  · refine ⟨?_,upholds.sends _⟩
    split
    · exact upholds.put ..
    · exact upholds.complete ..
  · exact ⟨upholds.put ..,upholds.sends _⟩

theorem Client.handleConsensusReply_upholds (holds : C c) (panics : C c.panic)
    (upholds : ∀ k req was, c.pendingReqs k = some req → req.kind = .consensus was → Upholds C N id c req)
    (msg : ReplyConsensusMessage n) :
    C (handleConsensusReply id c msg).1 ∧ ∀ p ∈ (handleConsensusReply id c msg).2, N p := by
  unfold handleConsensusReply
  split
  · exact ⟨holds,by simp⟩
  rename_i req got
  split
  next part kind =>
    have upholds := upholds _ req part got kind
    split
    · exact ⟨holds,by simp⟩
    dsimp only
    split
    · exact ⟨upholds.put ..,upholds.sends _⟩
    split
    · exact ⟨upholds.put ..,upholds.sends _⟩
    split
    · exact upholds.fastPath ..
    · exact ⟨upholds.put ..,by simp⟩
  · exact ⟨panics,by simp⟩

end

variable (holds : ClientIssued ledger id c)
include holds

theorem ClientIssued.replace (got : c.pendingReqs k = some old)
    (same : req.clientReqId = old.clientReqId ∧ req.type = old.type ∧ req.request = old.request) :
    ClientIssued ledger id (c.put req) where
  own := holds.own
  fresh := holds.fresh
  pending := by
    intro l new present
    obtain ⟨key,listed⟩ := holds.pending k old got
    rw [Client.put_pendingReqs] at present
    split at present
    next here =>
      cases present
      rw [here,same.1,key,same.2.1,same.2.2]
      exact ⟨rfl,listed⟩
    · exact holds.pending l new present
  past := holds.past

theorem ClientIssued.drop (k : Nat) : ClientIssued ledger id (c.drop k) where
  own := holds.own
  fresh := holds.fresh
  pending := by
    intro l new present
    rw [Client.drop_pendingReqs] at present
    split at present
    · cases present
    · exact holds.pending l new present
  past := holds.past

theorem ClientIssued.complete (k view : Nat) (result : Except ErrorCode String)
    (known : k ≤ c.lastReqId) : ClientIssued ledger id (c.complete k view result) where
  own := holds.own
  fresh := holds.fresh
  pending := holds.pending
  past := by
    refine forall_mem_append.mpr ⟨holds.past,fun done new => ?_⟩
    cases mem_singleton.mp new
    exact known

theorem ClientIssued.panic : ClientIssued ledger id c.panic :=
  ⟨holds.own,holds.fresh,holds.pending,holds.past⟩

section
variable (got : c.pendingReqs k = some req)
include got

theorem ClientIssued.known : k ≤ c.lastReqId := by
  by_contra beyond
  have listed := (holds.pending k req got).2
  rw [holds.fresh k (by omega)] at listed
  cases listed

theorem ClientIssued.known_req :
    req.clientReqId ≤ c.lastReqId := (holds.pending k req got).1 ▸ holds.known got

theorem ClientIssued.listed :
    ledger id req.clientReqId = some (req.type,req.request) := by
  obtain ⟨key,listed⟩ := holds.pending k req got
  rw [holds.own,key,listed]

theorem sendFinalizeConsensus_issued (kind : req.kind = .consensus was) (part : ConsensusPart n) :
    ∀ p ∈ Client.sendFinalizeConsensus id req part, PacketIssued ledger p :=
  forall_toAll fun _ => ⟨rfl,req.request,PendingRequest.type_consensus kind ▸ holds.listed got⟩

theorem consensus_issued (kind : req.kind = .consensus was) :
    Client.Upholds (ClientIssued ledger id) (PacketIssued ledger) id c req where
  put := fun _ _ _ => holds.replace got ⟨rfl,(PendingRequest.type_consensus kind).symm,rfl⟩
  complete := by
    intro part view result
    refine ClientIssued.complete ?_ _ _ _ (holds.known_req got)
    exact holds.replace got ⟨rfl,(PendingRequest.type_consensus kind).symm,rfl⟩
  sends := sendFinalizeConsensus_issued holds got kind

theorem transitionToConsensusSlowPath_issued (kind : req.kind = .consensus part) :
    ClientEffectIssued ledger id (Client.transitionToConsensusSlowPath id c req part) :=
  (consensus_issued holds got kind).transition part

theorem requestTimeout_issued :
    ClientEffectIssued ledger id (Client.requestTimeout id c req) := by
  have listed := holds.listed got
  unfold Client.requestTimeout
  split
  · exact ⟨(holds.drop _).complete _ _ _ (holds.known_req got),by simp⟩
  next kind =>
    rw [PendingRequest.type_inconsistent kind] at listed
    refine ⟨holds,?_⟩
    split
    · exact forall_toAll fun _ => ⟨rfl,req.request,listed⟩
    · exact forall_toAll fun _ => ⟨rfl,listed⟩
  next kind =>
    refine ⟨holds,?_⟩
    split
    · exact sendFinalizeConsensus_issued holds got kind _
    · rw [PendingRequest.type_consensus kind] at listed
      exact forall_toAll fun _ => ⟨rfl,listed⟩

end

theorem handleInconsistentReply_issued (msg : ReplyInconsistentMessage n)
    (mine : msg.opid.clientid = id) (sound : ledger.Has msg.opid .inconsistent) :
    ClientEffectIssued ledger id (Client.handleInconsistentReply id c msg) := by
  unfold Client.handleInconsistentReply
  dsimp only
  split
  · exact ⟨holds,by simp⟩
  rename_i req got
  split
  next quorum kind =>
    have type := (PendingRequest.type_inconsistent kind).symm
    split
    · refine ⟨ClientIssued.complete ?_ _ _ _ (holds.known got),forall_toAll fun _ => ⟨congrArg Address.client mine.symm,sound⟩⟩
      exact holds.replace got ⟨rfl,type,rfl⟩
    · exact ⟨holds.replace got ⟨rfl,type,rfl⟩,by simp⟩
  · exact ⟨holds.panic,by simp⟩

theorem handleConfirm_issued (msg : ConfirmMessage n) :
    ClientIssued ledger id (Client.handleConfirm c msg) := by
  unfold Client.handleConfirm
  dsimp only
  split
  · exact holds
  rename_i req got
  split
  · exact holds.replace got ⟨rfl,rfl,rfl⟩
  split
  · exact holds.drop _
  · split
    · exact (holds.drop _).complete _ _ _ (holds.known got)
    · exact holds.panic

theorem clientReceive_issued (p : Packet n (Message n)) (target : p.dst = .client id)
    (sound : PacketIssued ledger p) : ClientEffectIssued ledger id (Client.receiveMessage id c p.msg) := by
  obtain ⟨_,dst,msg⟩ := p
  cases target
  cases msg with
  | replyInconsistent msg =>
    exact handleInconsistentReply_issued holds msg (Address.client.inj sound.1).symm sound.2
  | replyConsensus msg => exact Client.handleConsensusReply_upholds holds holds.panic (fun _ _ _ got kind => consensus_issued holds got kind) msg
  | confirm msg => exact ⟨handleConfirm_issued holds msg,by simp [Client.receiveMessage]⟩
  | unloggedReply reply k =>
    refine ⟨?_,by simp [Client.receiveMessage]⟩
    change ClientIssued ledger id (Client.handleUnloggedReply c k reply)
    unfold Client.handleUnloggedReply
    split
    · exact holds
    next got =>
      exact (holds.drop _).complete _ _ _ (holds.known got)
  | _ => exact ⟨holds.panic,by simp [Client.receiveMessage]⟩

end
def EffectIssued (ledger : Ledger) (e : Effect n σ) : Prop := ReplicaIssued ledger e.replica ∧ ∀ p ∈ e.sent, PacketIssued ledger p

section
variable (holds : RecordIssued ledger r)
include holds

theorem RecordIssued.add
    (listed : ledger e.opid.clientid e.opid.clientreqid = some (.logged e.type,e.request.op)) : RecordIssued ledger (r.add e) := by
  intro op x got
  rw [Record.find_add] at got
  split at got
  · rename_i key; cases got; exact key ▸ listed
  · exact holds op x got

theorem RecordIssued.modify (same : new.asked = r.asked) : RecordIssued ledger new := by
  intro op e got
  have kept := congrFun same op
  rw [Record.asked,got] at kept
  obtain ⟨old,there,equal⟩ := Option.map_eq_some_iff.mp kept.symm
  obtain ⟨type,request⟩ := Prod.mk.inj equal
  rw [← type,← request]
  exact holds op old there

end

section
variable {env : Env σ} {me : Fin env.config.n} {r : Replica env.config.n σ} {ledger : Ledger}

section
variable (holds : ReplicaIssued ledger r)
include holds

theorem latestRecords_issued {msgs : OrdMap (Fin env.config.n) (DoViewChangeMessage env.config.n)}
    (stored : ∀ j msg, msgs.find j = some msg → ∀ rec, msg.record = some rec → RecordIssued ledger rec) :
    ∀ source ∈ latestRecords r msgs, RecordIssued ledger source := by
  intro source listed
  rcases mem_append.mp listed with sent | own
  · obtain ⟨p,mem,rfl⟩ := mem_map.mp sent
    have got := OrdMap.mem_entries.mp (mem_of_mem_filter mem)
    cases record : p.2.record with
    | none => intro op e none_there; cases none_there
    | some rec => exact stored p.1 p.2 got rec record
  · split at own
    · cases mem_singleton.mp own; exact holds.1
    · cases own

theorem collectDoViewChange_issued (msg : DoViewChangeMessage env.config.n)
    (sound : ∀ rec, msg.record = some rec → RecordIssued ledger rec) : EffectIssued ledger (collectDoViewChange env me r msg) := by
  have stored : ∀ view j m rec, (r.doViewChangeQuorum.add msg.newView msg.replicaIdx msg).Stored view j m →
      m.record = some rec → RecordIssued ledger rec := by
    intro view j m rec there record
    rcases QuorumSet.stored_add there with ⟨_,_,rfl⟩ | old
    · exact sound rec record
    · exact holds.2 view j m rec old record
  unfold collectDoViewChange
  split
  · exact ⟨holds,by simp⟩
  dsimp only
  split
  · exact ⟨⟨holds.1,stored⟩,by simp⟩
  rename_i msgs quorum
  have listed := (QuorumSet.checkForQuorum_some quorum).2
  split
  · exact ⟨⟨holds.1,stored⟩,by simp [Replica.panic]⟩
  rename_i app record merged
  have updated : ReplicaIssued ledger {r with
      doViewChangeQuorum := r.doViewChangeQuorum.add msg.newView msg.replicaIdx msg} := ⟨holds.1,stored⟩
  have sources := latestRecords_issued updated fun j m got rec => stored _ j m rec ((listed j m).mp got)
  have issued : RecordIssued ledger record := by
    intro op e got
    obtain ⟨source,mem,x,there,type,request⟩ := irMergeRecords_entry merged got
    rw [type,request]
    exact sources source mem op x there
  exact ⟨⟨issued,stored⟩,forall_toAll fun _ => issued⟩

theorem beginViewChange_issued (view : Nat) : EffectIssued ledger (beginViewChange env me r view) := by
  refine ⟨holds,?_⟩
  intro p mem
  rcases mem_broadcastDoViewChange env me mem with ⟨_,_,_,rfl⟩ | ⟨_,rfl⟩
  · intro rec record
    cases record
  · intro rec record
    cases record
    exact holds.1

theorem receive_issued (p : Packet env.config.n (Message env.config.n))
    (sound : PacketIssued ledger p) : EffectIssued ledger (receiveMessage env me r p.src p.msg) := by
  obtain ⟨src,_,msg⟩ := p
  cases msg with
  | proposeInconsistent req | proposeConsensus req =>
    dsimp only [receiveMessage,handleProposeInconsistent,handleProposeConsensus]
    split
    · exact ⟨holds,by simpa [PacketIssued] using ⟨sound.1,req.op,sound.2⟩⟩
    · exact ⟨⟨holds.1.add sound.2,holds.2⟩,by simpa [PacketIssued] using ⟨sound.1,req.op,sound.2⟩⟩
  | finalizeInconsistent opid =>
    change EffectIssued ledger (handleFinalizeInconsistent env me r src opid)
    unfold handleFinalizeInconsistent
    split
    · exact ⟨holds,by simp⟩
    · split
      · exact ⟨⟨holds.1.modify (Record.asked_setStatus ..),holds.2⟩,by simpa [PacketIssued] using sound.1⟩
      · exact ⟨holds,by simp⟩
  | finalizeConsensus opid result =>
    change EffectIssued ledger (handleFinalizeConsensus env me r src opid result)
    unfold handleFinalizeConsensus
    split
    · exact ⟨holds,by simp⟩
    · exact ⟨⟨(holds.1.modify (Record.asked_setStatus ..)).modify (Record.asked_setResult ..),holds.2⟩,by simpa [PacketIssued] using sound.1⟩
  | doViewChange msg =>
    change EffectIssued ledger (handleDoViewChange env me r msg)
    unfold handleDoViewChange
    split
    · exact ⟨holds,by simp⟩
    split
    · split
      · exact ⟨holds,by simp⟩
      · exact collectDoViewChange_issued holds msg sound
    have begun : EffectIssued ledger (beginViewChange env me r msg.newView) := beginViewChange_issued holds msg.newView
    have collected : EffectIssued ledger (collectDoViewChange env me (beginViewChange env me r msg.newView).replica msg) :=
      collectDoViewChange_issued begun.1 msg sound
    refine ⟨collected.1,fun p mem => ?_⟩
    rcases mem_append.mp mem with first | second
    · exact begun.2 p first
    · exact collected.2 p second
  | startView msg =>
    change EffectIssued ledger (handleStartView env r msg)
    unfold handleStartView
    split
    · exact ⟨holds,by simp⟩
    · split
      · exact ⟨holds,by simp⟩
      · exact ⟨⟨sound,holds.2⟩,by simp⟩
  | unloggedRequest req =>
    refine ⟨holds,?_⟩
    simpa [receiveMessage,handleUnlogged,PacketIssued] using ⟨req.clientid,sound.1,req.op,sound.2⟩
  | _ => exact ⟨holds,by simp [receiveMessage,Replica.panic]⟩

end

end

def Ledger.Extends (old new : Ledger) : Prop := ∀ id k x, old id k = some x → new id k = some x

section
variable {old new : Ledger} (longer : old.Extends new)
include longer

theorem Ledger.Extends.has (has : old.Has op type) : new.Has op type := by
  obtain ⟨request,listed⟩ := has
  exact ⟨request,longer _ _ _ listed⟩

theorem Ledger.Extends.record (holds : RecordIssued old r) : RecordIssued new r :=
  fun op e got => longer _ _ _ (holds op e got)

theorem Ledger.Extends.replica {r : Replica n σ} (holds : ReplicaIssued old r) : ReplicaIssued new r :=
  ⟨longer.record holds.1,fun view j msg rec stored record => longer.record (holds.2 view j msg rec stored record)⟩

theorem Ledger.Extends.packet {p : Packet n (Message n)} (holds : PacketIssued old p) : PacketIssued new p := by
  obtain ⟨_,_,msg⟩ := p
  cases msg with
  | proposeInconsistent req | proposeConsensus req | unloggedRequest req => exact ⟨holds.1,longer _ _ _ holds.2⟩
  | unloggedReply reply k =>
    obtain ⟨id,request,target,listed⟩ := holds
    exact ⟨id,request,target,longer _ _ _ listed⟩
  | replyInconsistent msg | replyConsensus msg | finalizeInconsistent opid | finalizeConsensus opid result => exact ⟨holds.1,longer.has holds.2⟩
  | confirm msg => exact holds
  | doViewChange msg => exact fun r record => longer.record (holds r record)
  | startView msg => exact longer.record holds

end

variable {env : Env σ}

def System.ledger (s : System env) : Ledger := fun id => (s.clients id).issued

structure System.Issued (s : System env) : Prop where
  replicas : ∀ i, ReplicaIssued s.ledger (s.replicas i)
  clients : ∀ id, ClientIssued s.ledger id (s.clients id)
  packets : ∀ p ∈ s.network, PacketIssued s.ledger p

theorem initial_issued (app : σ) : (System.initial app : System env).Issued where
  replicas := fun i =>
    ⟨fun op e got => absurd got (by simp [System.initial,Replica.new]),
      fun view j msg rec stored => absurd stored (QuorumSet.not_stored_new _)⟩
  clients := fun id => ⟨rfl,fun k _ => rfl,fun k req got => (by cases got),fun done mem => (by cases mem)⟩
  packets := nofun

variable {s : System env}

theorem perform_issued (holds : s.Issued) (effect : EffectIssued s.ledger e) : (s.perform i e).Issued where
  replicas := by
    intro j
    by_cases same : j = i
    · rw [System.perform_replicas,if_pos same]; exact effect.1
    · rw [System.perform_replicas,if_neg same]; exact holds.replicas j
  clients := holds.clients
  packets := by
    exact forall_mem_append.mpr ⟨holds.packets,effect.2⟩

variable {id : Nat}

variable {e : ClientEffect env.config.n}

theorem clientDoes_issued (holds : s.Issued)
    (grows : s.ledger.Extends (s.clientDoes id e).ledger)
    (effect : ClientEffectIssued (s.clientDoes id e).ledger id e) : (s.clientDoes id e).Issued where
  replicas := fun i => grows.replica (holds.replicas i)
  clients := by
    intro other
    by_cases same : other = id
    · rw [System.clientDoes_clients,if_pos same,same]; exact effect.1
    have before := holds.clients other
    have kept : (s.clientDoes id e).clients other = s.clients other := by rw [System.clientDoes_clients,if_neg same]
    rw [kept]
    exact ⟨by rw [System.ledger,kept],before.fresh,before.pending,before.past⟩
  packets := by
    exact forall_mem_append.mpr ⟨fun p old => grows.packet (holds.packets p old),effect.2⟩

theorem issue_ledger (s : System env) (id : Nat) (req : PendingRequest env.config.n)
    (sent : List (Packet env.config.n (Message env.config.n))) (other k : Nat) :
    (s.clientDoes id ((s.clients id).issue req,sent)).ledger other k =
      if other = id ∧ k = req.clientReqId then some (req.type,req.request) else s.ledger other k := by
  unfold System.ledger
  rw [System.clientDoes_clients]
  by_cases same : other = id
  · subst same
    by_cases new : k = req.clientReqId <;> simp [Client.issue,new]
  · simp [same]

section
variable {req : PendingRequest env.config.n} {sent : List (Packet env.config.n (Message env.config.n))}
  (holds : s.Issued) (next : req.clientReqId = (s.clients id).lastReqId + 1)
include holds next

theorem issue_extends :
    s.ledger.Extends (s.clientDoes id ((s.clients id).issue req,sent)).ledger := by
  intro other k x listed
  rw [issue_ledger]
  split
  next both =>
    obtain ⟨rfl,rfl⟩ := both
    have unused := (holds.clients other).fresh req.clientReqId (by omega)
    rw [← (holds.clients other).own,listed] at unused
    cases unused
  · exact listed

theorem issue_issued
    (sound : ∀ ledger : Ledger, ledger id req.clientReqId = some (req.type,req.request) → ∀ p ∈ sent, PacketIssued ledger p) :
    (s.clientDoes id ((s.clients id).issue req,sent)).Issued := by
  have before := holds.clients id
  have grows : s.ledger.Extends (s.clientDoes id ((s.clients id).issue req,sent)).ledger := issue_extends holds next
  refine clientDoes_issued holds grows ⟨⟨?_,?_,?_,fun done mem => (before.past done mem).trans (Nat.le_succ _)⟩,sound _ ?_⟩
  · simp [System.ledger]
  · intro k beyond
    have past : (s.clients id).lastReqId + 1 < k := beyond
    simpa [Client.issue,show k ≠ req.clientReqId by omega] using before.fresh k (by omega)
  · intro k new present
    by_cases same : k = req.clientReqId
    · subst same
      simp only [Client.issue,update_self,Option.some.injEq] at present ⊢
      subst present
      exact ⟨rfl,rfl⟩
    · simp only [Client.issue,update_of_ne same] at present ⊢
      exact before.pending k new present
  · simp [System.ledger,Client.issue]

end

theorem clientKeeps_ledger
    (effect : ClientEffectIssued s.ledger id e) : (s.clientDoes id e).ledger = s.ledger := by
  funext other
  unfold System.ledger
  rw [System.clientDoes_clients]
  split
  next here =>
    rw [here]
    exact effect.1.own.symm
  · rfl

theorem clientKeeps_issued (holds : s.Issued)
    (effect : ClientEffectIssued s.ledger id e) : (s.clientDoes id e).Issued := by
  have same := clientKeeps_ledger effect
  exact clientDoes_issued holds (same ▸ fun _ _ _ listed => listed) (same ▸ effect)

theorem step_issued {s t : System env} (holds : s.Issued) (taken : s.step a = some t) : t.Issued := by
  cases step_stepped taken with
  | replicaReceives sent _ _ => exact perform_issued holds (receive_issued (holds.replicas _) _ (holds.packets _ sent))
  | viewChange _ => exact perform_issued holds (beginViewChange_issued (holds.replicas _) _)
  | clientReceives sent target =>
    exact clientKeeps_issued holds (clientReceive_issued (holds.clients _) _ target (holds.packets _ sent))
  | invokeInconsistent id request | invokeConsensus id request decide =>
    exact issue_issued holds rfl fun ledger listed => forall_toAll fun _ => ⟨rfl,listed⟩
  | invokeUnlogged id idx request =>
    exact issue_issued holds rfl fun ledger listed => forall_mem_singleton.mpr ⟨rfl,listed⟩
  | requestTimeout got => exact clientKeeps_issued holds (requestTimeout_issued (holds.clients _) got)
  | slowPath got kind _ => exact clientKeeps_issued holds (transitionToConsensusSlowPath_issued (holds.clients _) got kind)

theorem reached_issued (reached : Reached env app allow s) : s.Issued := by
  induction reached with
  | initial => exact initial_issued app
  | step _ _ taken ih => exact step_issued ih taken

end DbExp.Tapir.Ir
