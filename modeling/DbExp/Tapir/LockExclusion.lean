import DbExp.Tapir.LockDecision

namespace DbExp.Tapir.Lock
open Function List
open Option (map_eq_some_iff)
open Ir (Opid Client Voted Finalized Ended About)

section
variable {wire : Wire} {id : Nat}

def Call.request (wire : Wire) (id : Nat) (call : Call) : Ir.RequestType × String :=
  (.logged (if call.lock then .consensus else .inconsistent),wire.request.serializeToString ⟨id,call.key,call.lock⟩)

structure Unreleased (s : Ir.System (lockEnv wire)) (id m : Nat) (key : String) : Prop where
  listed : s.ledger id m = some (Call.request wire id ⟨m,key,true⟩)
  ends : ∀ u, Ended s.network ⟨id,u⟩ → s.ledger id u = some (Call.request wire id ⟨u,key,false⟩) → u < m
  finals : ∀ other, Finalized s.network ⟨id,m⟩ other → Granted wire other

-- A replica that voted for a client's lock keeps the lock for it, until the client has
-- asked for a later unlock to be executed.
def Kept (s : Ir.System (lockEnv wire)) : Prop :=
  ∀ i id m key result, Voted s.network i ⟨id,m⟩ result → Granted wire result → Unreleased s id m key →
    (s.replicas i).app.find key = some id

theorem execConsensus_lock (locks : Locks) (request : wire.request.parseFromString text = ⟨id,key,true⟩) :
    (Granted wire (execConsensusUpcall wire locks text).2 → (execConsensusUpcall wire locks text).1.find key = some id) ∧
    ∀ k other, locks.find k = some other → (execConsensusUpcall wire locks text).1.find k = some other := by
  unfold execConsensusUpcall
  rw [request]
  cases held : locks.find key with
  | none =>
    refine ⟨fun _ => by simp [held],fun k other got => ?_⟩
    have apart : key ≠ k := by rintro rfl; rw [held] at got; cases got
    simp [held,apart,got]
  | some holder =>
    refine ⟨fun grants => ?_,fun k other got => by simp [held,got]⟩
    by_cases same : holder = id
    · simp [held,same]
    · simp [held,same,Granted,wire.reply.parse_serialize] at grants

theorem execInconsistent_unlock {locks : Locks} (request : wire.request.parseFromString text = ⟨id,key,false⟩)
    (got : locks.find k = some other) (apart : ¬ (k = key ∧ other = id)) :
    (execInconsistentUpcall wire locks text).find k = some other := by
  unfold execInconsistentUpcall
  rw [request]
  simp only [Bool.false_eq_true,if_false]
  split
  next held =>
    have different : key ≠ k := by
      rintro rfl
      rw [got] at held
      cases held
      exact apart ⟨rfl,rfl⟩
    rw [OrdMap.find_erase,if_neg different]
    exact got
  · exact got

variable {e : Ir.ClientEffect (lockEnv wire).config.n}

theorem kept_clientDoes {s : Ir.System (lockEnv wire)} (kept : Kept s)
    (issued : s.Issued) (about : ∀ p ∈ e.2, About op p.msg) (grows : s.ledger.Extends (s.clientDoes id e).ledger) :
    Kept (s.clientDoes id e) := by
  intro i c m key result vote grants free
  have old := About.voted about vote
  -- the vote is older than the step, and so is the request it is for
  have known : s.ledger c m = some (Call.request wire c ⟨m,key,true⟩) := by
    obtain ⟨msg,⟨⟨_,_,_⟩,mem,rfl⟩,_,at_op,_⟩ := old
    obtain ⟨_,has⟩ := (issued.packets _ mem).2
    rw [at_op] at has
    have after := grows c m _ has
    rw [free.listed] at after
    rw [has,← after]
  exact kept i c m key result old grants ⟨known,fun u out unlock => free.ends u (Ir.sent_append.mpr (.inl out)) (grows c u _ unlock),
    fun other out => free.finals other (Ir.sent_append.mpr (.inl out))⟩

section
variable {s : Ir.System (lockEnv wire)} {i : Fin (lockEnv wire).config.n} {e : Ir.Effect (lockEnv wire).config.n Locks}

theorem kept_perform (kept : Kept s) (answers : Ir.Answers i msg (s.replicas i) e)
    (here : ∀ id m key result, Voted (s.network ++ e.sent) i ⟨id,m⟩ result → Granted wire result → Unreleased s id m key →
      e.replica.app.find key = some id) : Kept (s.perform i e) := by
  intro j id m key result vote grants free
  have before : Unreleased s id m key :=
    ⟨free.listed,fun u out => free.ends u (Ir.sent_append.mpr (.inl out)),fun other out => free.finals other (Ir.sent_append.mpr (.inl out))⟩
  rw [Ir.System.perform_replicas]
  split
  next same =>
    subst same
    exact here id m key result vote grants before
  next other =>
    rcases Ir.voted_append.mp vote with old | ⟨reply,out,mine,_⟩
    · exact kept j id m key result old grants before
    · exact absurd (mine.symm.trans (answers.votes reply out).1) other

theorem kept_quiet (kept : Kept s) (answers : Ir.Answers i msg (s.replicas i) e) (same : e.replica.app = (s.replicas i).app)
    (old : ∀ op result, Voted e.sent i op result → Voted s.network i op result) : Kept (s.perform i e) := by
  refine kept_perform kept answers fun id m key result vote grants free => ?_
  rw [same]
  refine kept i id m key result ?_ grants free
  exact (Ir.voted_append.mp vote).elim (fun early => early) (old _ _)

end

structure Stands (s : System wire) : Prop where
  issued : s.ir.Issued
  votes : Ir.Votes s.ir
  clients : ∀ id, ClientStands wire s.ir.network id (s.ir.clients id)
  listed : ∀ id k x, s.ir.ledger id k = some x → ∃ call ∈ s.calls id, call.reqId = k ∧ x = call.request wire id
  ordered : ∀ id, (s.calls id).Pairwise (fun a b => a.reqId < b.reqId)
  known : ∀ id, ∀ call ∈ s.calls id, s.ir.ledger id call.reqId = some (call.request wire id)
  kept : Kept s.ir

theorem Call.request_inj {a b : Call} (same : a.request wire id = b.request wire id) : a.key = b.key ∧ a.lock = b.lock := by
  have texts := congrArg wire.request.parseFromString (Prod.mk.inj same).2
  rw [wire.request.parse_serialize,wire.request.parse_serialize] at texts
  exact (Request.mk.inj texts).2

variable {s : System wire}

theorem Stands.call_listed (holds : Stands s) (listed : s.ir.ledger id k = some (.logged type,text)) :
    ∃ key, text = wire.request.serializeToString ⟨id,key,type == .consensus⟩ := by
  obtain ⟨call,_,_,same⟩ := holds.listed id k _ listed
  obtain ⟨type,body⟩ := Prod.mk.inj same
  cases type
  refine ⟨call.key,?_⟩
  cases lock : call.lock <;> rw [body,lock] <;> rfl

section
variable {s : System wire} {i : Fin (lockEnv wire).config.n} (holds : Stands s)
include holds

theorem proposeConsensus_kept (req : Tapir.Request) (sent : ⟨src,dst,.proposeConsensus req⟩ ∈ s.ir.network) :
    Kept (s.ir.perform i (Ir.handleProposeConsensus (lockEnv wire) i (s.ir.replicas i) src req)) := by
  have sound := holds.issued.packets _ sent
  have answers : Ir.Answers i (.proposeConsensus req) (s.ir.replicas i) (Ir.handleProposeConsensus _ i (s.ir.replicas i) src req) :=
    Ir.handleProposeConsensus_answers (holds.issued.replicas i).1 req sound.2
  cases got : (s.ir.replicas i).record.find ⟨req.clientid,req.clientreqid⟩ with
  | some entry =>
    have effect : Ir.handleProposeConsensus (lockEnv wire) i (s.ir.replicas i) src req = ⟨s.ir.replicas i,
        [⟨.replica i,src,.replyConsensus ⟨entry.view,i,⟨req.clientid,req.clientreqid⟩,entry.result,entry.state = .finalized⟩⟩]⟩ := by
      unfold Ir.handleProposeConsensus
      dsimp only
      rw [got]
    refine kept_quiet holds.kept answers (by rw [effect]) fun op result vote => ?_
    rw [effect] at vote
    obtain ⟨msg,out,_,rfl,rfl,ongoing⟩ := vote
    cases Ir.sent_singleton.mp out
    have tentative : entry.state = .tentative := by
      cases state : entry.state with
      | tentative => rfl
      | finalized => simp [state] at ongoing
    exact holds.votes.recorded i _ entry got (Ir.entry_type (holds.issued.replicas i).1 got sound.2) tentative
  | none =>
    obtain ⟨key,body⟩ := holds.call_listed sound.2
    have request : wire.request.parseFromString req.op = ⟨req.clientid,key,true⟩ := by
      rw [body,wire.request.parse_serialize]; rfl
    obtain ⟨takes,keeps⟩ := execConsensus_lock (s.ir.replicas i).app request
    have effect : Ir.handleProposeConsensus (lockEnv wire) i (s.ir.replicas i) src req =
        ⟨{s.ir.replicas i with
            app := (execConsensusUpcall wire (s.ir.replicas i).app req.op).1
            record := (s.ir.replicas i).record.add ⟨(s.ir.replicas i).view,⟨req.clientid,req.clientreqid⟩,.tentative,.consensus,req,
              (execConsensusUpcall wire (s.ir.replicas i).app req.op).2⟩},
          [⟨.replica i,src,.replyConsensus ⟨(s.ir.replicas i).view,i,⟨req.clientid,req.clientreqid⟩,
            (execConsensusUpcall wire (s.ir.replicas i).app req.op).2,false⟩⟩]⟩ := by
      unfold Ir.handleProposeConsensus
      dsimp only
      rw [got]
      rfl
    refine kept_perform holds.kept answers fun id m other result vote grants free => ?_
    rcases Ir.voted_append.mp vote with old | new
    · have before := holds.kept i id m other result old grants free
      rw [effect]
      exact keeps other id before
    rw [effect] at new
    obtain ⟨msg,out,_,at_op,rfl,_⟩ := new
    cases Ir.sent_singleton.mp out
    cases at_op
    have listed := free.listed
    rw [sound.2,body] at listed
    obtain ⟨rfl,_⟩ := Call.request_inj (a := ⟨req.clientreqid,key,true⟩) (b := ⟨req.clientreqid,other,true⟩) (Option.some.inj listed)
    rw [effect]
    exact takes grants

theorem finalizeInconsistent_kept (opid : Opid) (sent : ⟨src,dst,.finalizeInconsistent opid⟩ ∈ s.ir.network)
    (order : KeepsLaterLocks wire (s.ir.replicas i) opid) :
    Kept (s.ir.perform i (Ir.handleFinalizeInconsistent (lockEnv wire) i (s.ir.replicas i) src opid)) := by
  have sound := holds.issued.packets _ sent
  have answers : Ir.Answers i (.finalizeInconsistent opid) (s.ir.replicas i) (Ir.handleFinalizeInconsistent _ i (s.ir.replicas i) src opid) :=
    Ir.handleFinalizeInconsistent_answers (holds.issued.replicas i).1 opid sound.2
  have silent (op : Opid) (result : String)
      (vote : Voted (Ir.handleFinalizeInconsistent (lockEnv wire) i (s.ir.replicas i) src opid).sent i op result) : False := by
    obtain ⟨_,⟨_,mem,same⟩,_⟩ := vote
    unfold Ir.handleFinalizeInconsistent at mem
    split at mem
    · cases mem
    split at mem
    · cases mem_singleton.mp mem
      cases same
    · cases mem
  cases got : (s.ir.replicas i).record.find opid with
  | none =>
    refine kept_quiet holds.kept answers ?_ fun op result vote => (silent op result vote).elim
    unfold Ir.handleFinalizeInconsistent
    rw [got]
  | some entry =>
    cases state : entry.state with
    | finalized =>
      refine kept_quiet holds.kept answers ?_ fun op result vote => (silent op result vote).elim
      unfold Ir.handleFinalizeInconsistent
      rw [got]
      simp [state]
    | tentative =>
      have app : (Ir.handleFinalizeInconsistent (lockEnv wire) i (s.ir.replicas i) src opid).replica.app =
          execInconsistentUpcall wire (s.ir.replicas i).app entry.request.op := by
        unfold Ir.handleFinalizeInconsistent
        rw [got]
        simp only [state,if_true]
        rfl
      obtain ⟨_,has⟩ := sound.2
      have same := (holds.issued.replicas i).1 _ _ got
      rw [Ir.entry_type (holds.issued.replicas i).1 got has] at same
      obtain ⟨key,body⟩ := holds.call_listed same
      have request : wire.request.parseFromString entry.request.op = ⟨opid.clientid,key,false⟩ := by
        rw [body,wire.request.parse_serialize]; rfl
      refine kept_perform holds.kept answers fun id m other result vote grants free => ?_
      rcases Ir.voted_append.mp vote with old | new
      · have before := holds.kept i id m other result old grants free
        rw [app]
        refine execInconsistent_unlock request before ?_
        rintro ⟨rfl,rfl⟩
        -- the unlock would release this very lock, so it must be the later request
        have earlier : opid.clientreqid < m := by
          refine free.ends _ ⟨_,sent,rfl⟩ ?_
          rw [same,body]
          rfl
        obtain ⟨x,there,type,kept⟩ := holds.votes.entry i _ result old
        have lock := (holds.issued.replicas i).1 _ _ there
        rw [free.listed,type] at lock
        have opens : wire.request.parseFromString x.request.op = ⟨opid.clientid,other,true⟩ := by
          rw [← (Prod.mk.inj (Option.some.inj lock)).2,wire.request.parse_serialize]
        have refused := order entry got state (by rw [request]; exact before) (⟨opid.clientid,m⟩,x) (Ir.Record.mem_entries.mpr there)
          rfl earlier type (by rw [opens,request])
        cases finished : x.state with
        | tentative => exact refused (kept finished ▸ grants)
        | finalized => exact refused (free.finals _ (holds.votes.finalized i _ x there type finished))
      · exact (silent _ _ new).elim

theorem receive_kept (sent : p ∈ s.ir.network) (target : p.dst = .replica i) (order : ReleasesInOrder s (.deliver p)) :
    Kept (s.ir.perform i (Ir.receiveMessage (lockEnv wire) i (s.ir.replicas i) p.src p.msg)) := by
  have answers := Ir.receive_answers (i := i) holds.votes holds.issued sent
  obtain ⟨src,dst,msg⟩ := p
  cases target
  cases msg with
  | proposeConsensus req => exact proposeConsensus_kept holds req sent
  | finalizeInconsistent opid => exact finalizeInconsistent_kept holds opid sent order
  | doViewChange m => exact absurd rfl ((holds.votes.quiet _ sent).1 m)
  | startView m => exact absurd rfl ((holds.votes.quiet _ sent).2 m)
  | proposeInconsistent req =>
    refine kept_quiet holds.kept answers ?_ ?_
    · change (Ir.handleProposeInconsistent (lockEnv wire) i (s.ir.replicas i) src req).replica.app = _
      unfold Ir.handleProposeInconsistent
      dsimp only
      split <;> rfl
    rintro op result ⟨msg,⟨p,mem,same⟩,_⟩
    change p ∈ (Ir.handleProposeInconsistent (lockEnv wire) i (s.ir.replicas i) src req).sent at mem
    unfold Ir.handleProposeInconsistent at mem
    dsimp only at mem
    split at mem <;> · cases mem_singleton.mp mem; cases same
  | finalizeConsensus opid result =>
    refine kept_quiet holds.kept answers ?_ ?_
    · change (Ir.handleFinalizeConsensus (lockEnv wire) i (s.ir.replicas i) src opid result).replica.app = _
      unfold Ir.handleFinalizeConsensus
      split <;> rfl
    rintro op _ ⟨msg,⟨p,mem,same⟩,_⟩
    change p ∈ (Ir.handleFinalizeConsensus (lockEnv wire) i (s.ir.replicas i) src opid result).sent at mem
    unfold Ir.handleFinalizeConsensus at mem
    split at mem
    · cases mem
    · cases mem_singleton.mp mem; cases same
  | unloggedRequest req =>
    refine kept_quiet holds.kept answers rfl ?_
    rintro op result ⟨msg,⟨p,mem,same⟩,_⟩
    cases mem_singleton.mp mem
    cases same
  | _ =>
    refine kept_quiet holds.kept answers rfl ?_
    rintro op result ⟨msg,⟨p,mem,_⟩,_⟩
    cases mem

theorem replica_stands (sent : p ∈ s.ir.network) (target : p.dst = .replica i) (order : ReleasesInOrder s (.deliver p))
    (issued : (s.ir.perform i (Ir.receiveMessage (lockEnv wire) i (s.ir.replicas i) p.src p.msg)).Issued) :
    Stands {s with ir := s.ir.perform i (Ir.receiveMessage (lockEnv wire) i (s.ir.replicas i) p.src p.msg)} := by
  have answers := Ir.receive_answers (i := i) holds.votes holds.issued sent
  refine ⟨issued,Ir.perform_votes holds.votes sent answers,?_,holds.listed,holds.ordered,holds.known,receive_kept holds sent target order⟩
  intro id k
  refine (holds.clients id k).grows Ir.voted_left (fun result out => ?_) (fun out => ?_) rfl rfl
    (fun _ mem => mem) (fun _ mem _ => mem)
  all_goals
    rcases Ir.sent_append.mp out with old | ⟨⟨_,_,_⟩,mem,rfl⟩
    · exact old
    · exact (answers.replies _ mem).elim

theorem client_clients (acts : Acts wire s.ir.network id k e) (other : Nat) :
    ClientStands wire (s.ir.clientDoes id e).network other ((s.ir.clientDoes id e).clients other) := by
  rw [Ir.System.clientDoes_clients]
  split
  · rename_i same; rw [same]; exact acts.1
  rename_i apart
  intro l
  have different : (⟨other,l⟩ : Opid) ≠ ⟨id,k⟩ := fun equal => apart (Opid.mk.inj equal).1
  exact (holds.clients other l).grows Ir.voted_left
    (fun result => About.finalized acts.2 different) (About.ended acts.2 different) rfl rfl (fun _ mem => mem)
    (fun _ mem _ => mem)

theorem client_stands (effect : Ir.ClientEffectIssued s.ir.ledger id e)
    (acts : Acts wire s.ir.network id k e) : Stands {s with ir := s.ir.clientDoes id e} := by
  have same := Ir.clientKeeps_ledger effect
  exact {
    issued := Ir.clientKeeps_issued holds.issued effect
    votes := Ir.clientDoes_votes holds.votes acts.2
    clients := client_clients holds acts
    listed := fun other l x there => holds.listed other l x (same ▸ there)
    ordered := holds.ordered
    known := fun other call mem => same.symm ▸ holds.known other call mem
    kept := kept_clientDoes holds.kept holds.issued acts.2 (same.symm ▸ fun _ _ _ listed => listed) }

theorem ended_listed (out : Ended s.ir.network ⟨id,k⟩) : ∃ text, (s.ir.clients id).issued k = some (.logged .inconsistent,text) := by
  obtain ⟨⟨_,_,_⟩,mem,rfl⟩ := out
  exact (holds.issued.packets _ mem).2

theorem finalized_listed (out : Finalized s.ir.network ⟨id,k⟩ result) :
    ∃ text, (s.ir.clients id).issued k = some (.logged .consensus,text) := by
  obtain ⟨⟨_,_,_⟩,mem,rfl⟩ := out
  exact (holds.issued.packets _ mem).2

theorem clientReceive_acts (sent : p ∈ s.ir.network) (target : p.dst = .client id) :
    ∃ k, Acts wire s.ir.network id k (Client.receiveMessage id (s.ir.clients id) p.msg) := by
  have sound := holds.issued.packets p sent
  have clients := holds.clients id
  have issued := holds.issued.clients id
  obtain ⟨_,dst,msg⟩ := p
  cases target
  cases msg with
  | replyInconsistent msg =>
    refine ⟨msg.opid.clientreqid,?_⟩
    have mine : msg.opid = ⟨id,msg.opid.clientreqid⟩ := by rw [← Address.client.inj sound.1.symm]
    exact inconsistentReply_acts clients (issued.pending _) msg mine
  | replyConsensus msg =>
    refine ⟨msg.opid.clientreqid,?_⟩
    have mine : msg.opid = ⟨id,msg.opid.clientreqid⟩ := by rw [← Address.client.inj sound.1.symm]
    refine consensusReply_acts clients (Nat.le_succ 2) (fun req got => (issued.pending _ req got).1) msg mine ?_ ?_
    · exact fun plain => ⟨msg,⟨_,sent,rfl⟩,rfl,mine,rfl,plain⟩
    · exact fun final => mine ▸ holds.votes.finalReply msg ⟨_,sent,rfl⟩ final
  | confirm msg =>
    refine ⟨msg.opid.clientreqid,?_⟩
    have mine : msg.opid = ⟨id,msg.opid.clientreqid⟩ := by rw [← Address.client.inj sound.symm]
    exact confirm_acts clients (issued.pending _) msg mine (mine ▸ holds.votes.confirm msg ⟨_,sent,rfl⟩) (ended_listed holds)
  | unloggedReply reply k =>
    obtain ⟨other,_,_,listed⟩ := sound
    obtain ⟨_,_,_,same⟩ := holds.listed other k _ listed
    cases (Prod.mk.inj same).1
  | _ => exact ⟨0,clients.panic⟩

theorem Stands.bounded (mem : call ∈ s.calls id) : call.reqId ≤ (s.ir.clients id).lastReqId := by
  by_contra beyond
  have listed := holds.known id call mem
  rw [(holds.issued.clients id).own,(holds.issued.clients id).fresh _ (by omega)] at listed
  cases listed

theorem call_stands {req : Ir.PendingRequest (lockEnv wire).config.n} {packets : Ir.Network (lockEnv wire).config.n}
    (issued : (s.ir.clientDoes id ((s.ir.clients id).issue req,packets)).Issued)
    (key : req.clientReqId = (s.ir.clients id).lastReqId + 1)
    (call : Call) (next : call.reqId = (s.ir.clients id).lastReqId + 1) (request : (req.type,req.request) = call.request wire id)
    (proposes : ∀ p ∈ packets, (∃ r, p.msg = .proposeConsensus r) ∨ ∃ r, p.msg = .proposeInconsistent r)
    (begins : req.confirming = false ∧ req.continuationInvoked = false)
    (part : ∀ part, req.kind = .consensus part →
      PartStands wire s.ir.network ⟨id,call.reqId⟩ part ∧ part.onSlowPath = false ∧ part.sentConfirms = false) :
    Stands ⟨s.ir.clientDoes id ((s.ir.clients id).issue req,packets),update s.calls id (s.calls id ++ [call])⟩ := by
  have same : req.clientReqId = call.reqId := key.trans next.symm
  have unused : (s.ir.clients id).issued call.reqId = none := (holds.issued.clients id).fresh _ (by omega)
  have acts : Acts wire s.ir.network id call.reqId ((s.ir.clients id).issue req,packets) := by
    refine issue_acts (holds.clients id) same packets ⟨?_,?_,?_⟩ proposes begins part
    · intro result out
      obtain ⟨text,listed⟩ := finalized_listed holds out
      rw [unused] at listed
      cases listed
    · intro out
      obtain ⟨text,listed⟩ := ended_listed holds out
      rw [unused] at listed
      cases listed
    · intro done mem here
      have := (holds.issued.clients id).past done mem
      omega
  refine ⟨issued,Ir.clientDoes_votes holds.votes acts.2,client_clients holds acts,?_,?_,?_,
    kept_clientDoes holds.kept holds.issued acts.2 (Ir.issue_extends holds.issued key)⟩
  · intro other l x listed
    rw [Ir.issue_ledger] at listed
    split at listed
    next both =>
      obtain ⟨rfl,rfl⟩ := both
      cases listed
      exact ⟨call,by simp,same.symm,request⟩
    · obtain ⟨old,mem,here,form⟩ := holds.listed other l x listed
      refine ⟨old,?_,here,form⟩
      by_cases mine : other = id
      · subst mine; simp [mem]
      · simp [mine,mem]
  · intro other
    dsimp only
    by_cases mine : other = id
    · subst mine
      rw [update_self]
      refine pairwise_append.mpr ⟨holds.ordered other,pairwise_singleton _ _,fun old mem new last => ?_⟩
      cases mem_singleton.mp last
      have := holds.bounded mem
      omega
    · rw [update_of_ne mine]
      exact holds.ordered other
  intro other old mem
  have grows : s.ir.ledger.Extends (s.ir.clientDoes id ((s.ir.clients id).issue req,packets)).ledger :=
    Ir.issue_extends holds.issued key
  dsimp only at mem
  by_cases mine : other = id
  · subst mine
    rw [update_self] at mem
    rcases mem_append.mp mem with early | last
    · exact grows _ _ _ (holds.known other old early)
    · cases mem_singleton.mp last
      rw [Ir.issue_ledger,if_pos ⟨rfl,same.symm⟩,request]
  · rw [update_of_ne mine] at mem
    exact grows _ _ _ (holds.known other old mem)

theorem issue_stands (taken : s.issue id key lock = some t) : Stands t := by
  unfold System.issue at taken
  split at taken
  · cases taken
  obtain ⟨_,moved,rfl⟩ := map_eq_some_iff.mp taken
  have issued := Ir.step_issued holds.issued moved
  cases lock with
  | true =>
    cases Ir.step_stepped moved with
    | invokeConsensus =>
      refine call_stands holds issued rfl ⟨_,key,true⟩ rfl rfl ?_ ⟨rfl,rfl⟩ ?_
      · exact fun p mem => .inl ⟨_,mem_toAll mem⟩
      · intro part kind
        cases kind
        exact ⟨⟨rfl,rfl,by simp [lockEnv,Configuration.fastQuorumSize],rfl,fun view j m there => absurd there (QuorumSet.not_stored_new _)⟩,rfl,rfl⟩
  | false =>
    cases Ir.step_stepped moved with
    | invokeInconsistent =>
      refine call_stands holds issued rfl ⟨_,key,false⟩ rfl rfl ?_ ⟨rfl,rfl⟩ ?_
      · exact fun p mem => .inr ⟨_,mem_toAll mem⟩
      · intro part kind
        cases kind

theorem step_stands (order : ReleasesInOrder s act) (taken : s.step act = some t) : Stands t := by
  cases act with
  | lock id key | unlock id key => exact issue_stands holds taken
  | deliver p =>
    obtain ⟨ir,moved,rfl⟩ := map_eq_some_iff.mp taken
    have issued := Ir.step_issued holds.issued moved
    cases Ir.step_stepped moved with
    | replicaReceives sent target _ => exact replica_stands holds sent target order issued
    | clientReceives sent target =>
      obtain ⟨k,acts⟩ := clientReceive_acts holds sent target
      exact client_stands holds (Ir.clientReceive_issued (holds.issued.clients _) _ target (holds.issued.packets _ sent)) acts
  | requestTimeout id k =>
    obtain ⟨ir,moved,rfl⟩ := map_eq_some_iff.mp taken
    cases Ir.step_stepped moved with
    | requestTimeout got =>
      obtain ⟨key,listed⟩ := (holds.issued.clients id).pending _ _ got
      exact client_stands holds (Ir.requestTimeout_issued (holds.issued.clients id) got)
        (requestTimeout_acts (holds.clients id) got key listed)
  | slowPath id k =>
    obtain ⟨ir,moved,rfl⟩ := map_eq_some_iff.mp taken
    cases Ir.step_stepped moved with
    | slowPath got kind armed =>
      exact client_stands holds (Ir.transitionToConsensusSlowPath_issued (holds.issued.clients id) got kind)
        (transition_acts (holds.clients id) got kind ((holds.issued.clients id).pending _ _ got).1
          (fun i => holds.votes.once i _) armed)

end

theorem initial_stands : Stands (System.initial : System wire) where
  issued := Ir.initial_issued (OrdMap.empty : Locks)
  votes := Ir.initial_votes (OrdMap.empty : Locks)
  clients := fun id k => ⟨fun req part got => (by cases got),fun req quorum got => (by cases got),
    fun ⟨p,mem,_⟩ => (by cases mem),fun done mem => (by cases mem)⟩
  listed := fun id k x there => by cases there
  ordered := fun id => .nil
  known := fun id call mem => by cases mem
  kept := fun i id m key result ⟨msg,⟨p,mem,_⟩,_⟩ => by cases mem

theorem reached_stands (reached : Reached wire ReleasesInOrder s) : Stands s := by
  induction reached with
  | initial => exact initial_stands
  | step _ order taken ih => exact step_stands ih order taken

theorem getLast_le {l : List (Call × Int)} (ordered : l.Pairwise (fun a b => a.1.reqId < b.1.reqId))
    (last : l.getLast? = some x) (mem : y ∈ l) : y.1.reqId ≤ x.1.reqId := by
  obtain ⟨_,rfl⟩ := List.getLast?_eq_some_iff.mp last
  rcases mem_append.mp mem with early | here
  · exact ((pairwise_append.mp ordered).2.2 y early x (mem_singleton_self _)).le
  · cases mem_singleton.mp here
    exact le_rfl

theorem holds_call (stands : Stands s) (holds : s.Holds id key) :
    ∃ call ∈ s.calls id, call.key = key ∧ call.lock = true ∧
      (∃ done ∈ (s.ir.clients id).completed, done.reqId = call.reqId ∧ ∃ result, done.result = .ok result ∧ Granted wire result) ∧
      ∀ other ∈ s.calls id, other.key = key → (∃ done ∈ (s.ir.clients id).completed, done.reqId = other.reqId) →
        other.reqId ≤ call.reqId := by
  obtain ⟨call,last,lock⟩ := holds
  have listed := mem_of_getLast? last
  obtain ⟨_,mem,shape⟩ := mem_filterMap.mp listed
  split at shape
  next atKey =>
    obtain ⟨status,returned,pair⟩ := map_eq_some_iff.mp shape
    cases pair
    refine ⟨call,mem,atKey,lock,?_,?_⟩
    · obtain ⟨done,first,outcome⟩ := map_eq_some_iff.mp returned
      obtain ⟨inList,atId⟩ := mem_filter.mp (mem_of_head? first)
      refine ⟨done,inList,by simpa using atId,?_⟩
      cases result : done.result with
      | error code => rw [result] at outcome; cases outcome
      | ok reply =>
        rw [result] at outcome
        simp only [lock,if_true] at outcome
        exact ⟨reply,rfl,outcome⟩
    rintro other inCalls otherKey ⟨done,completed,atId⟩
    have returns : ∃ value, s.status id other = some value := by
      unfold System.status System.completions
      have got : done ∈ (s.ir.clients id).completed.filter (fun done => done.reqId = other.reqId) :=
        mem_filter.mpr ⟨completed,by simpa using atId⟩
      cases list : (s.ir.clients id).completed.filter (fun done => done.reqId = other.reqId) with
      | nil => rw [list] at got; cases got
      | cons first rest => exact ⟨_,rfl⟩
    obtain ⟨value,known⟩ := returns
    refine getLast_le ?_ last (mem_filterMap.mpr ⟨other,inCalls,by rw [if_pos otherKey,known]; rfl⟩ : (other,value) ∈ _)
    refine List.Pairwise.filterMap _ ?_ (stands.ordered id)
    intro a b less x inA y inB
    split at inA
    · obtain ⟨_,_,rfl⟩ := map_eq_some_iff.mp inA
      split at inB
      · obtain ⟨_,_,rfl⟩ := map_eq_some_iff.mp inB
        exact less
      · cases inB
    · cases inA
  · cases shape

theorem holder_locks (stands : Stands s) (holds : s.Holds id key) :
    ∃ i j, i ≠ j ∧ (s.ir.replicas i).app.find key = some id ∧ (s.ir.replicas j).app.find key = some id := by
  obtain ⟨call,mem,rfl,lock,⟨done,completed,here,result,ok,grants⟩,latest⟩ := holds_call stands holds
  have listed := stands.known id call mem
  have form : call.request wire id = Call.request wire id ⟨call.reqId,call.key,true⟩ := by
    unfold Call.request
    rw [lock]
  rw [form] at listed
  obtain ⟨agree,votes⟩ := (stands.clients id call.reqId).returned done completed here result ok _
    ((congrFun (stands.issued.clients id).own call.reqId).symm.trans listed)
  have free : Unreleased s.ir id call.reqId call.key := by
    refine ⟨listed,fun u out request => ?_,fun other out => (agree other out).mpr grants⟩
    obtain ⟨other,inCalls,rfl,same⟩ := stands.listed id u _ request
    obtain ⟨keys,_⟩ := Call.request_inj same
    have before := latest other inCalls keys.symm ((stands.clients id other.reqId).ended out)
    refine lt_of_le_of_ne before fun equal => ?_
    rw [equal] at request
    obtain ⟨_,odd⟩ := Call.request_inj (Option.some.inj (listed.symm.trans request))
    cases odd
  obtain ⟨i,j,apart,⟨a,voteA,grantsA⟩,⟨b,voteB,grantsB⟩⟩ := votes grants
  exact ⟨i,j,apart,stands.kept i id _ _ a voteA grantsA free,stands.kept j id _ _ b voteB grantsB free⟩

theorem pairs_meet {i j k l : Fin 3} (first : i ≠ j) (second : k ≠ l) : i = k ∨ i = l ∨ j = k ∨ j = l := by
  omega

end

theorem mutual_exclusion_of_ordered_releases (wire : Wire) (s : System wire) (reached : Reached wire ReleasesInOrder s) :
    MutualExclusion s := by
  have stands := reached_stands reached
  intro key a b holdsA holdsB
  obtain ⟨_,_,apart,atI,atJ⟩ := holder_locks stands holdsA
  obtain ⟨_,_,distinct,atK,atL⟩ := holder_locks stands holdsB
  rcases pairs_meet apart distinct with rfl | rfl | rfl | rfl
  · exact Option.some.inj (atI.symm.trans atK)
  · exact Option.some.inj (atI.symm.trans atL)
  · exact Option.some.inj (atJ.symm.trans atK)
  · exact Option.some.inj (atJ.symm.trans atL)

def toReplica (id : Nat) (i : Fin 3) (msg : Ir.Message 3) : Act := .deliver ⟨.client id,.replica i,msg⟩

def toClient (i : Fin 3) (id : Nat) (msg : Ir.Message 3) : Act := .deliver ⟨.replica i,.client id,msg⟩

def success : String := Reply.text ⟨"k",0⟩

section
variable (id reqId : Nat)

def locksFast : List Act :=
  .lock id "k" :: ([0,1,2].map fun i => toReplica id i (.proposeConsensus ⟨Request.text ⟨id,"k",true⟩,id,reqId⟩)) ++
    ([0,1,2].map fun i => toClient i id (.replyConsensus ⟨0,i,⟨id,reqId⟩,success,false⟩))

def unlocks : List Act :=
  .unlock id "k" :: ([0,1].map fun i => toReplica id i (.proposeInconsistent ⟨Request.text ⟨id,"k",false⟩,id,reqId⟩)) ++
    ([0,1].map fun i => toClient i id (.replyInconsistent ⟨0,i,⟨id,reqId⟩,false⟩))

def executesUnlock : List Act := [0,1].map fun i => toReplica id i (.finalizeInconsistent ⟨id,reqId⟩)

def locksSlow : List Act :=
  .lock id "k" :: ([0,1].map fun i => toReplica id i (.proposeConsensus ⟨Request.text ⟨id,"k",true⟩,id,reqId⟩)) ++
    ([0,1].map fun i => toClient i id (.replyConsensus ⟨0,i,⟨id,reqId⟩,success,false⟩)) ++ [.slowPath id reqId] ++
    ([0,1].map fun i => toReplica id i (.finalizeConsensus ⟨id,reqId⟩ success)) ++
    ([0,1].map fun i => toClient i id (.confirm ⟨0,i,⟨id,reqId⟩⟩))

end

theorem exclusion_after_handover : ∃ s : System plainText, MutualExclusion s ∧
    s.lastReturned 7 "k" = some (⟨2,"k",false⟩,0) ∧ s.lastReturned 8 "k" = some (⟨1,"k",true⟩,0) := by
  obtain ⟨s,reached,seen⟩ := (machine plainText).reached_of_run ReleasesInOrder (fun s =>
      s.lastReturned 7 "k" = some (⟨2,"k",false⟩,0) ∧ s.lastReturned 8 "k" = some (⟨1,"k",true⟩,0))
    (locksFast 7 1 ++ unlocks 7 2 ++ executesUnlock 7 2 ++ locksSlow 8 1) (by decide +kernel)
  exact ⟨s,mutual_exclusion_of_ordered_releases plainText s reached,seen⟩

-- Client 7 locks, unlocks and locks again before its unlock is executed: the replicas
-- answer the second lock from the first one, and then release it.
theorem delayed_unlock_releases_later_lock : ¬ ∀ s : System plainText, Reached plainText Alternates s → MutualExclusion s := by
  intro claimed
  obtain ⟨s,reached,seven,eight⟩ := (machine plainText).reached_of_run Alternates (fun s =>
      s.lastReturned 7 "k" = some (⟨3,"k",true⟩,0) ∧ s.lastReturned 8 "k" = some (⟨1,"k",true⟩,0))
    (locksFast 7 1 ++ unlocks 7 2 ++ locksFast 7 3 ++ executesUnlock 7 2 ++ locksSlow 8 1) (by decide +kernel)
  have same := claimed s reached "k" 7 8 ⟨_,seven,rfl⟩ ⟨_,eight,rfl⟩
  cases same

end DbExp.Tapir.Lock
