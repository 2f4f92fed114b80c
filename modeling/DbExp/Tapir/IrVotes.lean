import DbExp.Tapir.IrIssued

namespace DbExp.Tapir.Ir
open List

-- Runs in which no view change starts: each replica executes a consensus operation
-- once, and what it answers before it is told the outcome is its vote.
abbrev Network (n : Nat) := List (Packet n (Message n))

section
variable (net : Network n)

def Sent (msg : Message n) : Prop := ∃ p ∈ net, p.msg = msg

def Voted (i : Fin n) (op : Opid) (result : String) : Prop :=
  ∃ msg : ReplyConsensusMessage n, Sent net (.replyConsensus msg) ∧ msg.replicaIdx = i ∧ msg.opid = op ∧ msg.result = result ∧
    msg.finalized = false

def Finalized (op : Opid) (result : String) : Prop := Sent net (.finalizeConsensus op result)

def Ended (op : Opid) : Prop := Sent net (.finalizeInconsistent op)

end

theorem sent_append {net new : Network n} : Sent (net ++ new) msg ↔ Sent net msg ∨ Sent new msg := by
  constructor
  · rintro ⟨p,mem,same⟩
    rcases mem_append.mp mem with old | fresh
    · exact .inl ⟨p,old,same⟩
    · exact .inr ⟨p,fresh,same⟩
  · rintro (⟨p,mem,same⟩ | ⟨p,mem,same⟩)
    · exact ⟨p,mem_append_left _ mem,same⟩
    · exact ⟨p,mem_append_right _ mem,same⟩

theorem voted_append {net new : Network n} : Voted (net ++ new) i op result ↔ Voted net i op result ∨ Voted new i op result := by
  constructor
  · rintro ⟨msg,sent,vote⟩
    exact (sent_append.mp sent).imp (fun old => ⟨msg,old,vote⟩) (fun fresh => ⟨msg,fresh,vote⟩)
  · rintro (⟨msg,sent,vote⟩ | ⟨msg,sent,vote⟩)
    · exact ⟨msg,sent_append.mpr (.inl sent),vote⟩
    · exact ⟨msg,sent_append.mpr (.inr sent),vote⟩

theorem voted_left {net new : Network n} (i : Fin n) (result : String) (vote : Voted net i op result) : Voted (net ++ new) i op result :=
  voted_append.mpr (.inl vote)

def About (op : Opid) (msg : Message n) : Prop :=
  match msg with
  | .proposeInconsistent _ => True
  | .proposeConsensus _ => True
  | .unloggedRequest _ => True
  | .finalizeInconsistent o => o = op
  | .finalizeConsensus o _ => o = op
  | _ => False

def Reply (msg : Message n) : Prop :=
  match msg with
  | .replyInconsistent _ => True
  | .replyConsensus _ => True
  | .confirm _ => True
  | .unloggedReply _ _ => True
  | _ => False

section
variable {net new : Network n} (about : ∀ p ∈ new, About op p.msg)
include about

theorem About.voted (voted : Voted (net ++ new) i o result) : Voted net i o result := by
  rcases voted_append.mp voted with old | ⟨_,⟨p,mem,same⟩,_⟩
  · exact old
  · have only := about p mem
    rw [same] at only
    exact only.elim

theorem About.finalized (other : o ≠ op) (finalized : Finalized (net ++ new) o result) : Finalized net o result := by
  rcases sent_append.mp finalized with old | ⟨p,mem,same⟩
  · exact old
  · have only := about p mem
    rw [same] at only
    exact absurd only other

theorem About.ended (other : o ≠ op) (ended : Ended (net ++ new) o) : Ended net o := by
  rcases sent_append.mp ended with old | ⟨p,mem,same⟩
  · exact old
  · have only := about p mem
    rw [same] at only
    exact absurd only other

end

structure Answers (i : Fin n) (msg : Message n) (r : Replica n σ) (e : Effect n σ) : Prop where
  evolves : ∀ op old, r.record.find op = some old → old.type = .consensus →
    ∃ x, e.replica.record.find op = some x ∧ x.type = .consensus ∧ (x.state = .tentative → old.state = .tentative ∧ x.result = old.result)
  finalizes : ∀ op x, e.replica.record.find op = some x → x.type = .consensus → x.state = .finalized →
    r.record.find op = some x ∨ msg = .finalizeConsensus op x.result
  records : ∀ op x, e.replica.record.find op = some x → x.type = .consensus → x.state = .tentative →
    r.record.find op = some x ∨ Voted e.sent i op x.result
  votes : ∀ m, Sent e.sent (.replyConsensus m) → m.replicaIdx = i ∧
    ∃ x, e.replica.record.find m.opid = some x ∧ x.type = .consensus ∧ x.result = m.result ∧ (m.finalized ↔ x.state = .finalized)
  confirms : ∀ m, Sent e.sent (.confirm m) → (∃ result, msg = .finalizeConsensus m.opid result) ∨ msg = .finalizeInconsistent m.opid
  replies : ∀ p ∈ e.sent, Reply p.msg

theorem sent_singleton {q : Packet n (Message n)} : Sent [q] msg ↔ q.msg = msg := by
  simp [Sent]

theorem Answers.plain {i : Fin n} {r : Replica n σ} {e : Effect n σ}
    (same : ∀ op x, x.type = .consensus → (e.replica.record.find op = some x ↔ r.record.find op = some x))
    (replies : ∀ p ∈ e.sent, Reply p.msg ∧ ∀ m, p.msg ≠ .replyConsensus m)
    (confirms : ∀ m, Sent e.sent (.confirm m) → msg = .finalizeInconsistent m.opid) : Answers i msg r e where
  evolves := fun op old got type => ⟨old,(same op old type).mpr got,type,fun tentative => ⟨tentative,rfl⟩⟩
  finalizes := fun op x got type _ => .inl ((same op x type).mp got)
  records := fun op x got type _ => .inl ((same op x type).mp got)
  votes := fun m ⟨p,mem,reply⟩ => absurd reply ((replies p mem).2 m)
  confirms := fun m sent => .inr (confirms m sent)
  replies := fun p mem => (replies p mem).1

theorem Answers.replied {i : Fin n} {r t : Replica n σ}
    (same : ∀ op x, x.type = .consensus → (t.record.find op = some x ↔ r.record.find op = some x))
    (reply : Reply q.msg ∧ ∀ m, q.msg ≠ .replyConsensus m) (confirms : ∀ m, q.msg = .confirm m → msg = .finalizeInconsistent m.opid) :
    Answers i msg r ⟨t,[q]⟩ :=
  .plain same (forall_mem_singleton.mpr reply) fun m sent => confirms m (sent_singleton.mp sent)

theorem Answers.silent {r t : Replica n σ} (i : Fin n) (same : t.record = r.record) : Answers i msg r ⟨t,[]⟩ :=
  .plain (by simp [same]) (nofun) (fun m ⟨p,mem,_⟩ => by cases mem)

section
variable {env : Env σ} {i : Fin env.config.n} {r : Replica env.config.n σ} {ledger : Ledger}

theorem entry_type (issued : RecordIssued ledger r.record) (got : r.record.find op = some e)
    (listed : ledger op.clientid op.clientreqid = some (.logged type,text)) : e.type = type := by
  have both := (issued _ _ got).symm.trans listed
  simp only [Option.some.injEq,Prod.mk.injEq,RequestType.logged.injEq] at both
  exact both.1

theorem handleProposeConsensus_answers (issued : RecordIssued ledger r.record) (req : Request)
    (listed : ledger req.clientid req.clientreqid = some (.logged .consensus,req.op)) :
    Answers i (.proposeConsensus req) r (handleProposeConsensus env i r remote req) := by
  unfold handleProposeConsensus
  dsimp only
  split
  next entry got =>
    refine {Answers.silent (r := r) i rfl with
      records := fun op x got _ _ => .inl got
      votes := ?_
      confirms := ?_
      replies := ?_}
    · intro m sent
      cases sent_singleton.mp sent
      exact ⟨rfl,entry,got,entry_type issued got listed,rfl,by simp⟩
    · intro m sent
      cases sent_singleton.mp sent
    · exact forall_mem_singleton.mpr trivial
  next absent =>
    refine ⟨?_,?_,?_,?_,?_,?_⟩
    · intro op old got type
      refine ⟨old,?_,type,fun tentative => ⟨tentative,rfl⟩⟩
      rw [Record.find_add]
      split
      · rename_i same; cases same; rw [absent] at got; cases got
      · exact got
    · intro op x got type final
      rw [Record.find_add] at got
      split at got
      · cases got; cases final
      · exact .inl got
    · intro op x got type tentative
      rw [Record.find_add] at got
      split at got
      next same =>
        cases same
        cases got
        exact .inr ⟨_,sent_singleton.mpr rfl,rfl,rfl,rfl,rfl⟩
      · exact .inl got
    · intro m sent
      cases sent_singleton.mp sent
      refine ⟨rfl,⟨r.view,⟨req.clientid,req.clientreqid⟩,.tentative,.consensus,req,_⟩,?_,rfl,rfl,by simp⟩
      rw [Record.find_add,if_pos rfl]
    · intro m sent
      cases sent_singleton.mp sent
    · exact forall_mem_singleton.mpr trivial

theorem handleFinalizeConsensus_answers (opid : Opid) (result : String) :
    Answers i (.finalizeConsensus opid result) r (handleFinalizeConsensus env i r remote opid result) := by
  unfold handleFinalizeConsensus
  split
  · exact .silent i rfl
  have changed (op : Opid) : ((r.record.setStatus opid .finalized).setResult opid result).find op =
      if op = opid then (r.record.find op).map (fun e => {e with
        state := .finalized
        result := result}) else r.record.find op := by
    rw [Record.find_setResult,Record.find_setStatus]
    split
    · rw [Option.map_map]; rfl
    · rfl
  refine ⟨?_,?_,?_,?_,?_,?_⟩
  · intro op old got type
    rw [changed]
    split
    · rw [got]; exact ⟨_,rfl,type,fun tentative => by cases tentative⟩
    · exact ⟨old,got,type,fun tentative => ⟨tentative,rfl⟩⟩
  · intro op x got type final
    rw [changed] at got
    split at got
    next same =>
      obtain ⟨old,there,rfl⟩ := Option.map_eq_some_iff.mp got
      exact .inr (by rw [same])
    · exact .inl got
  · intro op x got type tentative
    rw [changed] at got
    split at got
    · obtain ⟨old,there,rfl⟩ := Option.map_eq_some_iff.mp got
      cases tentative
    · exact .inl got
  · intro m sent
    cases sent_singleton.mp sent
  · intro m sent
    cases sent_singleton.mp sent
    exact .inl ⟨result,rfl⟩
  · exact forall_mem_singleton.mpr trivial

theorem handleProposeInconsistent_answers (req : Request) :
    Answers i (.proposeInconsistent req) r (handleProposeInconsistent env i r remote req) := by
  unfold handleProposeInconsistent
  dsimp only
  split
  · exact .replied (fun _ _ _ => Iff.rfl) ⟨trivial,nofun⟩ (nofun)
  rename_i absent
  refine .replied ?_ ⟨trivial,nofun⟩ (nofun)
  intro op x type
  rw [Record.find_add]
  split
  next same =>
    cases same
    rw [absent]
    constructor
    · intro new; cases new; cases type
    · intro old; cases old
  · exact Iff.rfl

theorem handleFinalizeInconsistent_answers (issued : RecordIssued ledger r.record) (opid : Opid)
    (listed : ledger.Has opid .inconsistent) :
    Answers i (.finalizeInconsistent opid) r (handleFinalizeInconsistent env i r remote opid) := by
  unfold handleFinalizeInconsistent
  split
  · exact .silent i rfl
  rename_i entry got
  split
  · refine .replied ?_ ⟨trivial,by simp⟩ fun m same => (by cases same; rfl)
    intro op x type
    rw [Record.find_setStatus]
    split
    next same =>
      subst same
      obtain ⟨_,has⟩ := listed
      have inconsistent := entry_type issued got has
      rw [got]
      constructor
      · intro new; cases new; rw [inconsistent] at type; cases type
      · intro old; cases old; rw [inconsistent] at type; cases type
    · exact Iff.rfl
  · exact .silent i rfl

structure Votes (s : System env) : Prop where
  quiet : ∀ p ∈ s.network, (∀ m, p.msg ≠ .doViewChange m) ∧ ∀ m, p.msg ≠ .startView m
  entry : ∀ i op result, Voted s.network i op result →
    ∃ x, (s.replicas i).record.find op = some x ∧ x.type = .consensus ∧ (x.state = .tentative → x.result = result)
  recorded : ∀ i op x, (s.replicas i).record.find op = some x → x.type = .consensus → x.state = .tentative →
    Voted s.network i op x.result
  once : ∀ i op a b, Voted s.network i op a → Voted s.network i op b → a = b
  finalized : ∀ i op x, (s.replicas i).record.find op = some x → x.type = .consensus → x.state = .finalized →
    Finalized s.network op x.result
  finalReply : ∀ m, Sent s.network (.replyConsensus m) → m.finalized → ∃ result, Finalized s.network m.opid result
  confirm : ∀ m, Sent s.network (.confirm m) → (∃ result, Finalized s.network m.opid result) ∨ Ended s.network m.opid

theorem initial_votes (app : σ) : Votes (System.initial app : System env) := by
  refine ⟨?_,?_,?_,?_,?_,?_,?_⟩
  · intro p mem; cases mem
  · rintro i op _ ⟨_,⟨p,mem,_⟩,_⟩; cases mem
  · intro i op x got
    simp [System.initial,Replica.new] at got
  · rintro i op _ _ ⟨_,⟨p,mem,_⟩,_⟩; cases mem
  · intro i op x got
    simp [System.initial,Replica.new] at got
  · rintro m ⟨p,mem,_⟩; cases mem
  · rintro m ⟨p,mem,_⟩; cases mem

theorem receive_answers {s : System env} (votes : Votes s) (issued : s.Issued) (sent : p ∈ s.network) :
    Answers i p.msg (s.replicas i) (receiveMessage env i (s.replicas i) p.src p.msg) := by
  have sound := issued.packets p sent
  have quiet := votes.quiet p sent
  have record := (issued.replicas i).1
  obtain ⟨src,_,msg⟩ := p
  cases msg with
  | proposeInconsistent req => exact handleProposeInconsistent_answers req
  | finalizeInconsistent opid => exact handleFinalizeInconsistent_answers record opid sound.2
  | proposeConsensus req => exact handleProposeConsensus_answers record req sound.2
  | finalizeConsensus opid result => exact handleFinalizeConsensus_answers opid result
  | doViewChange m => exact absurd rfl (quiet.1 m)
  | startView m => exact absurd rfl (quiet.2 m)
  | unloggedRequest req => exact .replied (fun _ _ _ => Iff.rfl) ⟨trivial,nofun⟩ (nofun)
  | _ => exact .silent i rfl

theorem perform_votes {s : System env} (votes : Votes s) (sent : p ∈ s.network) (answers : Answers i p.msg (s.replicas i) e) :
    Votes (s.perform i e) := by
  have grown {msg : Message env.config.n} (old : Sent s.network msg) : Sent (s.perform i e).network msg := sent_append.mpr (.inl old)
  have record (j : Fin env.config.n) (other : j ≠ i) : (s.perform i e).replicas j = s.replicas j := by
    rw [System.perform_replicas,if_neg other]
  have own : (s.perform i e).replicas i = e.replica := by rw [System.perform_replicas,if_pos rfl]
  have carried (op : Opid) (old : RecordEntry) (result : String) (got : (s.replicas i).record.find op = some old)
      (type : old.type = .consensus) (kept : old.state = .tentative → old.result = result) :
      ∃ x, e.replica.record.find op = some x ∧ x.type = .consensus ∧ (x.state = .tentative → x.result = result) := by
    obtain ⟨x,there,same,evolved⟩ := answers.evolves op old got type
    exact ⟨x,there,same,fun tentative => (evolved tentative).2.trans (kept (evolved tentative).1)⟩
  have settled : ∀ j op x, ((s.perform i e).replicas j).record.find op = some x → x.type = .consensus → x.state = .finalized →
      Finalized (s.perform i e).network op x.result := by
    intro j op x got type final
    by_cases other : j = i
    · subst other
      rw [own] at got
      rcases answers.finalizes op x got type final with old | told
      · exact grown (votes.finalized j op x old type final)
      · exact grown ⟨p,sent,told⟩
    · rw [record j other] at got
      exact grown (votes.finalized j op x got type final)
  have fresh (j : Fin env.config.n) (op : Opid) (result : String) (vote : Voted e.sent j op result) :
      j = i ∧ ∃ x, e.replica.record.find op = some x ∧ x.type = .consensus ∧ x.state = .tentative ∧ x.result = result := by
    obtain ⟨m,out,rfl,rfl,rfl,ongoing⟩ := vote
    obtain ⟨mine,x,got,type,same,state⟩ := answers.votes m out
    refine ⟨mine,x,got,type,?_,same⟩
    cases tentative : x.state with
    | tentative => rfl
    | finalized => rw [state.mpr tentative] at ongoing; cases ongoing
  have mixed (j : Fin env.config.n) (op : Opid) (a b : String) (old : Voted s.network j op a) (new : Voted e.sent j op b) : a = b := by
    obtain ⟨rfl,x,got,_,tentative,rfl⟩ := fresh j op b new
    obtain ⟨y,there,type,kept⟩ := votes.entry j op a old
    obtain ⟨_,after,_,same⟩ := carried op y a there type kept
    rw [got] at after
    cases after
    exact (same tentative).symm
  refine ⟨?_,?_,?_,?_,settled,?_,?_⟩
  · refine forall_mem_append.mpr ⟨votes.quiet,fun q new => ?_⟩
    have reply := answers.replies q new
    refine ⟨fun m same => ?_,fun m same => ?_⟩ <;> · rw [same] at reply; exact reply
  · intro j op result vote
    rcases voted_append.mp vote with old | new
    · obtain ⟨x,got,type,kept⟩ := votes.entry j op result old
      by_cases other : j = i
      · subst other; rw [own]; exact carried op x result got type kept
      · rw [record j other]; exact ⟨x,got,type,kept⟩
    · obtain ⟨rfl,x,got,type,_,same⟩ := fresh j op result new
      rw [own]
      exact ⟨x,got,type,fun _ => same⟩
  · intro j op x got type tentative
    by_cases other : j = i
    · subst other
      rw [own] at got
      rcases answers.records op x got type tentative with old | new
      · exact voted_append.mpr (.inl (votes.recorded j op x old type tentative))
      · exact voted_append.mpr (.inr new)
    · rw [record j other] at got
      exact voted_append.mpr (.inl (votes.recorded j op x got type tentative))
  · intro j op a b first second
    rcases voted_append.mp first with oldA | newA <;> rcases voted_append.mp second with oldB | newB
    · exact votes.once j op a b oldA oldB
    · exact mixed j op a b oldA newB
    · exact (mixed j op b a oldB newA).symm
    obtain ⟨_,x,foundA,_,_,rfl⟩ := fresh j op a newA
    obtain ⟨_,y,foundB,_,_,rfl⟩ := fresh j op b newB
    rw [foundA] at foundB
    cases foundB
    rfl
  · intro m out final
    rcases sent_append.mp out with old | new
    · obtain ⟨result,finalized⟩ := votes.finalReply m old final
      exact ⟨result,grown finalized⟩
    · obtain ⟨_,x,got,type,_,state⟩ := answers.votes m new
      exact ⟨x.result,settled i m.opid x (by rw [own]; exact got) type (state.mp final)⟩
  intro m out
  rcases sent_append.mp out with old | new
  · exact (votes.confirm m old).imp (fun ⟨result,finalized⟩ => ⟨result,grown finalized⟩) grown
  · rcases answers.confirms m new with ⟨result,told⟩ | told
    · exact .inl ⟨result,grown ⟨p,sent,told⟩⟩
    · exact .inr (grown ⟨p,sent,told⟩)

theorem clientDoes_votes {s : System env} {id : Nat} {e : ClientEffect env.config.n} (votes : Votes s)
    (about : ∀ p ∈ e.2, About op p.msg) : Votes (s.clientDoes id e) := by
  have grown {msg : Message env.config.n} (old : Sent s.network msg) : Sent (s.clientDoes id e).network msg := sent_append.mpr (.inl old)
  have plain {msg : Message env.config.n} (out : Sent (s.clientDoes id e).network msg) (never : ¬ About op msg) : Sent s.network msg := by
    rcases sent_append.mp out with old | ⟨p,mem,rfl⟩
    · exact old
    · exact absurd (about p mem) never
  refine ⟨?_,?_,?_,?_,?_,?_,?_⟩
  · refine forall_mem_append.mpr ⟨votes.quiet,fun q new => ?_⟩
    have only := about q new
    refine ⟨fun m same => ?_,fun m same => ?_⟩ <;> · rw [same] at only; exact only
  · exact fun i op result vote => votes.entry i op result (About.voted about vote)
  · exact fun i op x got type tentative => voted_append.mpr (.inl (votes.recorded i op x got type tentative))
  · exact fun i op a b first second => votes.once i op a b (About.voted about first) (About.voted about second)
  · exact fun i op x got type final => grown (votes.finalized i op x got type final)
  · intro m out final
    obtain ⟨result,finalized⟩ := votes.finalReply m (plain out fun never => never) final
    exact ⟨result,grown finalized⟩
  · intro m out
    exact (votes.confirm m (plain out fun never => never)).imp (fun ⟨result,finalized⟩ => ⟨result,grown finalized⟩) grown

end
end DbExp.Tapir.Ir
