import DbExp.Foundation.Machine
import DbExp.Tapir.IrClient

namespace DbExp.Tapir.Ir
open List

-- One consensus request of a client from its invocation on: what its client becomes
-- and all that was sent, under any replies, any confirms and either of its timers.
structure ConsensusRun (n : Nat) where
  client : Client n
  sent : List (Packet n (Message n))

inductive ConsensusEvent (n : Nat) where
  | reply (view : Nat) (replicaIdx : Fin n) (result : String) (finalized : Bool)
  | confirm (view : Nat) (replicaIdx : Fin n)
  | resend
  | slowPath
  deriving DecidableEq

def ConsensusRun.also (s : ConsensusRun n) (e : ClientEffect n) : ConsensusRun n := ⟨e.1,s.sent ++ e.2⟩

def Client.slowPathArmed (c : Client n) (reqId : Nat) : Option (PendingRequest n × ConsensusPart n) :=
  match c.pendingReqs reqId with
  | some req =>
    match req.kind with
    | .consensus part => if part.transitionToSlowPathTimer then some (req,part) else none
    | _ => none
  | none => none

def ConsensusRun.step (clientid reqId : Nat) (s : ConsensusRun n) : ConsensusEvent n → Option (ConsensusRun n)
  | .reply view replicaIdx result finalized =>
    some (s.also (s.client.handleConsensusReply clientid ⟨view,replicaIdx,⟨clientid,reqId⟩,result,finalized⟩))
  | .confirm view replicaIdx => some (s.also (s.client.handleConfirm ⟨view,replicaIdx,⟨clientid,reqId⟩⟩,[]))
  | .resend => (s.client.pendingReqs reqId).map fun req => s.also (s.client.requestTimeout clientid req)
  | .slowPath => (s.client.slowPathArmed reqId).map fun (req,part) =>
      s.also (s.client.transitionToConsensusSlowPath clientid req part)

def consensusRun (config : Configuration) (clientid : Nat) (c : Client config.n) (request : String)
    (decide : OrdMap String Nat → String) : Machine (ConsensusRun config.n) (ConsensusEvent config.n) where
  initial := ConsensusRun.also ⟨c,[]⟩ (({c with completed := []} : Client config.n).invokeConsensus config clientid request decide)
  step := ConsensusRun.step clientid (c.lastReqId + 1)

section
variable (s : ConsensusRun n) (clientid reqId : Nat) (result : String)

def ConsensusRun.Finalizes : Prop :=
  ∃ p ∈ s.sent, p.msg = .finalizeConsensus ⟨clientid,reqId⟩ result

instance : Decidable (s.Finalizes clientid reqId result) := by
  unfold ConsensusRun.Finalizes
  infer_instance

end

def ConsensusRun.continued (s : ConsensusRun n) (reqId : Nat) : List String :=
  s.client.completed.filterMap fun done =>
    if done.reqId = reqId then (match done.result with | .ok result => some result | .error _ => none) else none

structure OneResult (clientid reqId : Nat) (s : ConsensusRun n) : Prop where
  once : (s.continued reqId).length ≤ 1
  same : ∃ result, (∀ other, s.Finalizes clientid reqId other → other = result) ∧ ∀ other ∈ s.continued reqId, other = result

-- A slow-path timer that fires after the request was decided decides the same again.
def DecidesAlike (s : ConsensusRun n) (reqId : Nat) : ConsensusEvent n → Prop
  | .slowPath => ∀ armed ∈ s.client.slowPathArmed reqId, armed.2.sentConfirms = true →
      ∀ quorum ∈ armed.2.consensusReplyQuorum.checkForAnyQuorum,
        armed.2.decide (Client.replyCounts quorum) = armed.2.decideResult
  | _ => True

instance (s : ConsensusRun n) (reqId : Nat) : DecidablePred (DecidesAlike s reqId) := fun event => by
  cases event <;> unfold DecidesAlike <;> infer_instance

-- Where a request stands. Undecided, nothing was sent or handed out for it; decided,
-- what was sent is its decision, and so is what was handed out, if anything was. When
-- it is gone, nothing more happens to it.
inductive Stage (clientid reqId : Nat) (s : ConsensusRun n) : Prop where
  | ongoing (req : PendingRequest n) (part : ConsensusPart n) (pending : s.client.pendingReqs reqId = some req)
      (id : req.clientReqId = reqId) (kind : req.kind = .consensus part) (unsent : part.sentConfirms = false)
      (proposing : req.confirming = false) (uninvoked : req.continuationInvoked = false)
      (silent : ∀ other, ¬ s.Finalizes clientid reqId other) (waiting : s.continued reqId = [])
  | decided (req : PendingRequest n) (part : ConsensusPart n) (pending : s.client.pendingReqs reqId = some req)
      (id : req.clientReqId = reqId) (kind : req.kind = .consensus part) (sent : part.sentConfirms = true)
      (confirming : req.confirming = true)
      (finalized : ∀ other, s.Finalizes clientid reqId other → other = part.decideResult)
      (answered : s.continued reqId = if req.continuationInvoked then [part.decideResult] else [])
  | gone (absent : s.client.pendingReqs reqId = none) (once : (s.continued reqId).length ≤ 1) (result : String)
      (finalized : ∀ other, s.Finalizes clientid reqId other → other = result)
      (answered : ∀ other ∈ s.continued reqId, other = result)

theorem Stage.oneResult (stage : Stage clientid reqId s) : OneResult clientid reqId s := by
  cases stage with
  | ongoing req part pending id kind unsent proposing uninvoked silent waiting =>
    refine ⟨by rw [waiting]; exact Nat.zero_le _,"",fun other finalizes => (silent other finalizes).elim,?_⟩
    rw [waiting]
    intro other mem
    cases mem
  | decided req part pending id kind sent confirming finalized answered =>
    refine ⟨?_,part.decideResult,finalized,?_⟩
    · rw [answered]
      split <;> simp
    rw [answered]
    intro other mem
    split at mem
    · exact mem_singleton.mp mem
    · cases mem
  | gone absent once result finalized answered => exact ⟨once,result,finalized,answered⟩

section
variable {n clientid reqId : Nat} {s : ConsensusRun n} {req : PendingRequest n} {part : ConsensusPart n}

variable {e : ClientEffect n}

theorem finalizes_also : (s.also e).Finalizes clientid reqId result ↔
    s.Finalizes clientid reqId result ∨ ∃ p ∈ e.2, p.msg = .finalizeConsensus ⟨clientid,reqId⟩ result := by
  unfold ConsensusRun.Finalizes ConsensusRun.also
  simp only [mem_append]
  constructor
  · rintro ⟨p,old | new,same⟩
    · exact .inl ⟨p,old,same⟩
    · exact .inr ⟨p,new,same⟩
  · rintro (⟨p,old,same⟩ | ⟨p,new,same⟩)
    · exact ⟨p,.inl old,same⟩
    · exact ⟨p,.inr new,same⟩

variable {c : Client n}

theorem also_silent : s.also (c,[]) = {s with client := c} := by
  simp [ConsensusRun.also]

theorem continued_also (same : e.1.completed = s.client.completed) :
    (s.also e).continued reqId = s.continued reqId := by
  unfold ConsensusRun.continued ConsensusRun.also
  rw [same]

theorem continued_complete (same : e.1.completed = s.client.completed ++ [⟨reqId,view,.ok result⟩]) :
    (s.also e).continued reqId = s.continued reqId ++ [result] := by
  unfold ConsensusRun.continued ConsensusRun.also
  rw [same,filterMap_append]
  simp

theorem continued_error (same : e.1.completed = s.client.completed ++ [⟨reqId,view,.error code⟩]) :
    (s.also e).continued reqId = s.continued reqId := by
  unfold ConsensusRun.continued ConsensusRun.also
  rw [same,filterMap_append]
  simp

theorem put_self (id : req.clientReqId = reqId) : (c.put req).pendingReqs reqId = some req := by
  rw [Client.put_pendingReqs,if_pos id.symm]

theorem sendFinalize_result
    (sent : ∃ p ∈ (Client.sendFinalizeConsensus clientid req part : List (Packet n (Message n))),
      p.msg = .finalizeConsensus ⟨clientid,reqId⟩ result) : result = part.decideResult := by
  obtain ⟨p,mem,same⟩ := sent
  have told := mem_toAll mem
  rw [same] at told
  injection told

theorem Stage.decide {before after : ConsensusPart n} {later : PendingRequest n}
    (pending : c.pendingReqs reqId = some later) (id : later.clientReqId = reqId) (kind : later.kind = .consensus after)
    (sent : after.sentConfirms = true) (confirming : later.confirming = true) (decision : before.decideResult = after.decideResult)
    (finalized : ∀ other, s.Finalizes clientid reqId other → other = after.decideResult)
    (answered : (s.also (c,Client.sendFinalizeConsensus clientid req before)).continued reqId =
      if later.continuationInvoked then [after.decideResult] else []) :
    Stage clientid reqId (s.also (c,Client.sendFinalizeConsensus clientid req before)) := by
  refine .decided later after pending id kind sent confirming ?_ answered
  intro other finalizes
  rcases finalizes_also.mp finalizes with old | new
  · exact finalized other old
  · rw [← decision]
    exact sendFinalize_result new

section
variable {msgs : OrdMap (Fin n) (ReplyConsensusMessage n)} {given : ConsensusPart n} (id : req.clientReqId = reqId)
include id

theorem slowPath_stage (finalized : ∀ other, s.Finalizes clientid reqId other →
      other = if got then given.decideResult else given.decide (Client.replyCounts msgs))
    (answered : s.continued reqId = if req.continuationInvoked then
      [if got then given.decideResult else given.decide (Client.replyCounts msgs)] else []) :
    Stage clientid reqId (s.also (s.client.handleSlowPathConsensus clientid req given msgs got)) := by
  unfold Client.handleSlowPathConsensus
  refine Stage.decide (put_self id) id rfl rfl rfl rfl ?_ ?_
  · intro other finalizes
    rw [finalized other finalizes]
    cases got <;> rfl
  · rw [continued_also rfl,answered]
    cases got <;> rfl

theorem fastPath_stage (uninvoked : req.continuationInvoked = false) (silent : ∀ other, ¬ s.Finalizes clientid reqId other)
    (waiting : s.continued reqId = []) :
    Stage clientid reqId (s.also (s.client.handleFastPathConsensus clientid req given view msgs)) := by
  unfold Client.handleFastPathConsensus
  split
  next result count got =>
    dsimp only
    rw [if_neg (by rw [uninvoked]; decide)]
    refine Stage.decide (put_self id) id rfl rfl rfl rfl (fun other finalizes => (silent other finalizes).elim) ?_
    rw [continued_complete (by rw [← id]; rfl),waiting]
    rfl
  · refine slowPath_stage id (fun other finalizes => (silent other finalizes).elim) ?_
    rw [waiting,uninvoked]
    rfl

end

theorem reply_stage (stage : Stage clientid reqId s) (msg : ReplyConsensusMessage n) (about : msg.opid.clientreqid = reqId) :
    Stage clientid reqId (s.also (s.client.handleConsensusReply clientid msg)) := by
  unfold Client.handleConsensusReply
  rw [about]
  cases stage with
  | ongoing req part pending id kind unsent proposing uninvoked silent waiting =>
    rw [pending]
    dsimp only
    rw [kind]
    dsimp only
    rw [if_neg (by rw [unsent]; decide)]
    have nothing : ∀ other : String, ∀ result, s.Finalizes clientid reqId other → other = result :=
      fun other _ finalizes => (silent other finalizes).elim
    have unanswered : ∀ result : String, s.continued reqId = if req.continuationInvoked then [result] else [] := by
      intro result
      rw [waiting,uninvoked]
      rfl
    split
    · exact slowPath_stage id (fun other => nothing other _) (unanswered _)
    split
    · exact slowPath_stage id (fun other => nothing other _) (unanswered _)
    split
    · exact fastPath_stage id uninvoked silent waiting
    rw [also_silent]
    exact .ongoing _ _ (put_self id) id rfl unsent proposing uninvoked silent waiting
  | decided req part pending id kind sent confirming finalized answered =>
    rw [pending]
    dsimp only
    rw [kind]
    dsimp only
    rw [if_pos sent,also_silent]
    exact .decided req part pending id kind sent confirming finalized answered
  | gone absent once result finalized answered =>
    rw [absent,also_silent]
    exact .gone absent once result finalized answered

theorem Stage.ends (absent : s.client.pendingReqs reqId = none)
    (finalized : ∀ other, s.Finalizes clientid reqId other → other = result)
    (answered : s.continued reqId = [result] ∨ s.continued reqId = []) : Stage clientid reqId s := by
  rcases answered with one | none
  · exact .gone absent (by rw [one]; exact le_rfl) result finalized (by rw [one]; exact fun _ => mem_singleton.mp)
  · exact .gone absent (by rw [none]; exact Nat.zero_le _) result finalized (by rw [none]; nofun)

theorem confirmed_stage {view : Nat} (finalized : ∀ other, s.Finalizes clientid reqId other → other = part.decideResult)
    (answered : s.continued reqId = if req.continuationInvoked then [part.decideResult] else []) :
    Stage clientid reqId (s.also (if req.continuationInvoked then s.client.drop reqId
      else (s.client.drop reqId).complete reqId view
        (if view = part.replyConsensusView then .ok part.decideResult else .error .mismatchedConsensusViews),[])) := by
  have carried (c : Client n) (other : String) (finalizes : (s.also (c,[])).Finalizes clientid reqId other) :
      other = part.decideResult := by
    rw [also_silent] at finalizes
    exact finalized other finalizes
  by_cases invoked : req.continuationInvoked = true
  · rw [if_pos invoked] at answered ⊢
    exact .ends (by simp [ConsensusRun.also]) (carried _) (.inl ((continued_also rfl).trans answered))
  rw [if_neg invoked] at answered ⊢
  split
  · exact .ends (by simp [ConsensusRun.also,Client.complete]) (carried _) (.inl (by rw [continued_complete rfl,answered]; rfl))
  · exact .ends (by simp [ConsensusRun.also,Client.complete]) (carried _) (.inr ((continued_error rfl).trans answered))

theorem confirm_stage (stage : Stage clientid reqId s) (msg : ConfirmMessage n) (about : msg.opid.clientreqid = reqId) :
    Stage clientid reqId (s.also (s.client.handleConfirm msg,[])) := by
  unfold Client.handleConfirm
  dsimp only
  rw [about]
  cases stage with
  | ongoing req part pending id kind unsent proposing uninvoked silent waiting =>
    rw [pending]
    dsimp only
    split
    · rw [also_silent]
      exact .ongoing _ part (put_self id) id kind unsent proposing uninvoked silent waiting
    · rw [kind]
      exact confirmed_stage (fun other finalizes => (silent other finalizes).elim) (by rw [waiting,uninvoked]; rfl)
  | decided req part pending id kind sent confirming finalized answered =>
    rw [pending]
    dsimp only
    split
    · rw [also_silent]
      exact .decided _ part (put_self id) id kind sent confirming finalized answered
    · rw [kind]
      exact confirmed_stage finalized answered
  | gone absent once result finalized answered =>
    rw [absent,also_silent]
    exact .gone absent once result finalized answered

theorem resend_stage (stage : Stage clientid reqId s) (pending : s.client.pendingReqs reqId = some req) :
    Stage clientid reqId (s.also (s.client.requestTimeout clientid req)) := by
  unfold Client.requestTimeout
  cases stage with
  | ongoing other part got id kind unsent proposing uninvoked silent waiting =>
    rw [pending] at got
    cases got
    rw [kind]
    dsimp only
    rw [if_neg (by rw [proposing]; decide)]
    refine .ongoing req part pending id kind unsent proposing uninvoked ?_ ?_
    · intro result finalizes
      rcases finalizes_also.mp finalizes with old | ⟨_,mem,same⟩
      · exact silent result old
      · have told := mem_toAll mem
        rw [same] at told
        cases told
    · rw [continued_also rfl]
      exact waiting
  | decided other part got id kind sent confirming finalized answered =>
    rw [pending] at got
    cases got
    rw [kind]
    dsimp only
    rw [if_pos confirming]
    exact Stage.decide pending id kind sent confirming rfl finalized (by rw [continued_also rfl]; exact answered)
  | gone absent once result finalized answered =>
    rw [pending] at absent
    cases absent

theorem slowPathArmed_some (armed : c.slowPathArmed reqId = some (req,part)) :
    c.pendingReqs reqId = some req ∧ req.kind = .consensus part := by
  unfold Client.slowPathArmed at armed
  split at armed
  next got =>
    split at armed
    next kind =>
      split at armed
      · cases armed
        exact ⟨got,kind⟩
      · cases armed
    · cases armed
  · cases armed

theorem transition_stage (stage : Stage clientid reqId s) (armed : s.client.slowPathArmed reqId = some (req,part))
    (alike : part.sentConfirms = true → ∀ quorum ∈ part.consensusReplyQuorum.checkForAnyQuorum,
      part.decide (Client.replyCounts quorum) = part.decideResult) :
    Stage clientid reqId (s.also (s.client.transitionToConsensusSlowPath clientid req part)) := by
  obtain ⟨got,shape⟩ := slowPathArmed_some armed
  unfold Client.transitionToConsensusSlowPath
  dsimp only
  cases stage with
  | ongoing other given pending id kind unsent proposing uninvoked silent waiting =>
    rw [got] at pending
    cases pending
    rw [shape] at kind
    cases kind
    split
    · refine slowPath_stage id (fun other finalizes => (silent other finalizes).elim) ?_
      rw [waiting,uninvoked]
      rfl
    rw [also_silent]
    exact .ongoing _ _ (put_self id) id rfl unsent proposing uninvoked silent waiting
  | decided other given pending id kind sent confirming finalized answered =>
    rw [got] at pending
    cases pending
    rw [shape] at kind
    cases kind
    split
    next quorum reached =>
      have again := alike sent quorum reached
      refine slowPath_stage id ?_ ?_
      · intro other finalizes
        exact (finalized other finalizes).trans again.symm
      · exact answered.trans (by rw [← again]; rfl)
    · rw [also_silent]
      exact .decided _ _ (put_self id) id rfl sent confirming finalized answered
  | gone absent once result finalized answered =>
    rw [got] at absent
    cases absent

theorem step_stage {event : ConsensusEvent n} {t : ConsensusRun n} (stage : Stage clientid reqId s)
    (alike : DecidesAlike s reqId event) (taken : s.step clientid reqId event = some t) : Stage clientid reqId t := by
  cases event with
  | reply view replicaIdx result finalized =>
    cases taken
    exact reply_stage stage _ rfl
  | confirm view replicaIdx =>
    cases taken
    exact confirm_stage stage _ rfl
  | resend =>
    obtain ⟨req,pending,rfl⟩ := Option.map_eq_some_iff.mp taken
    exact resend_stage stage pending
  | slowPath =>
    obtain ⟨⟨req,_⟩,armed,rfl⟩ := Option.map_eq_some_iff.mp taken
    exact transition_stage stage armed (alike _ armed)

end

-- One result per consensus request, in runs whose late slow-path timers decide alike.
theorem oneResult_of_alike_decisions (config : Configuration) (clientid : Nat) (c : Client config.n) (request : String)
    (decide : OrdMap String Nat → String) (s : ConsensusRun config.n)
    (reached : (consensusRun config clientid c request decide).Reached (fun s event => DecidesAlike s (c.lastReqId + 1) event) s) :
    OneResult clientid (c.lastReqId + 1) s := by
  refine Stage.oneResult (reached.invariant (Stage clientid (c.lastReqId + 1)) ?_ ?_)
  · refine .ongoing _ _ (Function.update_self ..) rfl rfl rfl rfl rfl ?_ rfl
    rintro _ ⟨p,member,same⟩
    have told := mem_toAll (show p ∈ sendMessageToAll _ _ from member)
    rw [same] at told
    cases told
  · intro s event t _ stage alike taken
    exact step_stage stage alike taken

-- Three replicas answer alike, so the fast path finalizes their answer and hands it
-- out; no confirm has arrived when the slow-path timer fires.
def trio : Configuration := ⟨3,1,three_replicas⟩

def trioRun (decide : OrdMap String Nat → String) : Machine (ConsensusRun 3) (ConsensusEvent 3) :=
  consensusRun trio 7 {} "op" decide

def unanimousThenTimer (result : String) : List (ConsensusEvent 3) :=
  [.reply 0 (0 : Fin 3) result false,.reply 0 (1 : Fin 3) result false,.reply 0 (2 : Fin 3) result false,.slowPath]

def anyAnswer (results : OrdMap String Nat) : String := (results.entries.head?.map Prod.fst).getD ""

theorem oneResult_of_unanimous_majority : ∃ s : ConsensusRun 3, OneResult 7 1 s ∧
    s.Finalizes 7 1 "r" ∧ s.continued 1 = ["r"] := by
  have ran : ((trioRun anyAnswer).run (fun s event => DecidesAlike s 1 event) (trioRun anyAnswer).initial
      (unanimousThenTimer "r")).map (fun s => decide (s.Finalizes 7 1 "r" ∧ s.continued 1 = ["r"])) = some true := by
    decide +kernel
  obtain ⟨s,reached,seen⟩ := Machine.reached_of_run _ _ _ _ ran
  exact ⟨s,oneResult_of_alike_decisions trio 7 {} "op" anyAnswer s reached,seen⟩

theorem second_result_finalized : ¬ ∀ (config : Configuration) (clientid : Nat) (c : Client config.n) (request : String)
    (decide : OrdMap String Nat → String) (s : ConsensusRun config.n),
    (consensusRun config clientid c request decide).Reached Machine.anyStep s → OneResult clientid (c.lastReqId + 1) s := by
  intro claimed
  have ran : ((trioRun fun _ => "d").run Machine.anyStep (trioRun fun _ => "d").initial
      (unanimousThenTimer "r")).map (fun s => decide (s.Finalizes 7 1 "r" ∧ s.Finalizes 7 1 "d")) = some true := by
    decide +kernel
  obtain ⟨s,reached,fast,slow⟩ := Machine.reached_of_run _ _ _ _ ran
  obtain ⟨_,_,same,_⟩ := claimed trio 7 {} "op" (fun _ => "d") s reached
  have equal := (same _ fast).trans (same _ slow).symm
  exact absurd equal (by decide)

end DbExp.Tapir.Ir
