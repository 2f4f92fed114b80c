import DbExp.Tapir.VrTransfer

namespace DbExp.Tapir.Vr
open Function List
open ViewLog

variable {env : Env σ} {rules : Rules (Nat × Request)} {a b : Views env} {s t : System env}

def System.floor (s : System env) (j : Fin env.config.n) : Nat := (s.replicas j).lastCommitted

-- The simulation: every replica stands somewhere in the abstract state and every
-- packet ever sent says something true about it.
structure Related (rules : Rules (Nat × Request)) (s : System env) (a : Views env) : Prop where
  valid : Valid env.leader rules a
  replicas : ∀ j, Holds a j (s.replicas j)
  network : ∀ p ∈ s.network, Sent a s.floor p

theorem initial_holds (app : σ) (i : Fin env.config.n) : Holds (initial : Views env) i (Replica.new env i app) where
  wf := Log.Wf.empty
  view := rfl
  lastOp := rfl
  stands := ⟨0,rfl,le_rfl,by simp [Replica.new],fun w later => if_neg (by omega),.inl rfl⟩
  committed := le_rfl
  executed := rfl
  entered := by
    intro w
    by_cases first : w = 0
    · subst first; exact ⟨fun _ => ⟨[],rfl⟩,fun _ => by simp [Replica.new]⟩
    · simp [Replica.new,initial,first]
  acksRequired := rfl
  changesRequired := rfl
  acks := fun vs j msg stored => (QuorumSet.not_stored_new _ stored).elim
  changes := fun v j msg stored => (QuorumSet.not_stored_new _ stored).elim
  prepared := ⟨[],rfl,le_rfl,fun _ => rfl,fun k req here => by cases here⟩
  closing := fun armed => by cases armed
  beating := fun _ => rfl

theorem initial_related (rules : Rules (Nat × Request)) (app : σ) : Related rules (System.initial app : System env) initial :=
  ⟨initial_valid,fun i => initial_holds app i,nofun⟩

structure Onward (s : System env) (a : Views env) (t : System env) (b : Views env) : Prop where
  grows : Grows env.leader a b
  raised : ∀ j, s.floor j ≤ t.floor j

theorem perform_floor (s : System env) (e : Effect env.config.n σ) :
    (s.perform i e).floor = update s.floor i e.replica.lastCommitted :=
  funext (apply_update (fun _ r => Replica.lastCommitted r) s.replicas i e.replica)

theorem perform_related (related : Related rules s a) (follows : Follows rules i s.floor a (s.replicas i) e) :
    ∃ b, Related rules (s.perform i e) b ∧ Onward s a (s.perform i e) b := by
  obtain ⟨b,moved,holds,raised,sent⟩ := follows
  have onward : Onward s a (s.perform i e) b := ⟨moved.grows,by rw [perform_floor]; exact le_update_self_iff.mpr raised⟩
  refine ⟨b,⟨moved.valid related.valid,(forall_update_iff s.replicas fun j r => Holds b j r).mpr ⟨holds,fun j other => ?_⟩,?_⟩,onward⟩
  · exact (related.replicas j).grows moved.grows (moved.others j other).1 (moved.others j other).2
  · refine forall_mem_append.mpr ⟨fun p old => (related.network p old).grows onward.grows onward.raised,?_⟩
    rw [perform_floor]
    exact sent

def Asks (p : Packet n (Message n)) : Prop :=
  (∃ req, p.msg = .request req) ∨ ∃ req, p.msg = .unloggedRequest req

theorem clientDoes_related (related : Related rules s a)
    (requests : ∀ p ∈ sent, Asks p) :
    Related rules (s.clientDoes clientid c sent) a := by
  refine ⟨related.valid,related.replicas,?_⟩
  refine forall_mem_append.mpr ⟨related.network,fun p new => ?_⟩
  unfold Sent
  rcases requests p new with ⟨_,same⟩ | ⟨_,same⟩ <;> rw [same] <;> trivial

def Action.Delivers (holds : Fin n → Stray n → Message n → Prop) : Action n → Prop
  | .deliver ⟨_,.replica i,msg⟩ stray => holds i stray msg
  | _ => True

instance (holds : Fin n → Stray n → Message n → Prop) [∀ i stray msg, Decidable (holds i stray msg)] (act : Action n) :
    Decidable (act.Delivers holds) := by
  unfold Action.Delivers; split <;> infer_instance

theorem Action.Delivers.to {holds : Fin n → Stray n → Message n → Prop} (delivers : (Action.deliver p stray).Delivers holds)
    (target : p.dst = .replica i) : holds i stray p.msg := by
  obtain ⟨_,_,msg⟩ := p
  cases target
  exact delivers

theorem Action.Delivers.mono {act : Action n} {holds other : Fin n → Stray n → Message n → Prop}
    (imply : ∀ i stray msg, holds i stray msg → other i stray msg) (delivers : act.Delivers holds) : act.Delivers other := by
  unfold Action.Delivers at *
  split at delivers
  · exact imply _ _ _ delivers
  · trivial

def ViewChangeFits (s : System env) (i : Fin env.config.n) (stray : Stray env.config.n) : Message env.config.n → Prop
  | .doViewChange msg => LatestLogSelected s i stray msg
  | .startView msg => EmptyLogStarts (s.replicas i) msg
  | _ => True

structure Guarded (rules : Rules (Nat × Request)) (s : System env) (i : Fin env.config.n) (stray : Stray env.config.n)
    (msg : Message env.config.n) : Prop where
  change : ViewChangeFits s i stray msg
  transfer : ∀ m, msg = .stateTransfer m → TransferFits i (s.replicas i) m
  sound : ∀ req, msg = .request req → (s.replicas i).status = .normal → env.leader (s.replicas i).view = i →
    ∀ remote, clientTableAnswer env i (s.replicas i) remote req = none →
    ∀ op, rules.Sound ((s.replicas i).log.items ++ [((s.replicas i).view,⟨op,req.clientid,req.clientreqid⟩)])

theorem receiveMessage_follows (stamped : rules.stamp = Prod.fst) (sized : env.config.n = 2 * env.config.f + 1)
    (related : Related rules s a) (live : (s.replicas i).panicked = false) (sent : p ∈ s.network)
    (target : p.dst = .replica i) (guarded : Guarded rules s i stray p.msg) :
    Follows rules i s.floor a (s.replicas i) (receiveMessage env i (s.replicas i) p.src stray p.msg) := by
  have holds := related.replicas i
  have valid := related.valid
  have fact := related.network p sent
  unfold Sent at fact
  cases same : p.msg with
  | request req =>
    exact handleRequest_follows stamped holds fun normal leads passed op => guarded.sound req same normal leads _ passed op
  | unloggedRequest req => exact handleUnloggedRequest_follows holds
  | reply msg | unloggedReply reply clientreqid => exact panic_follows holds
  | prepare msg =>
    rw [same] at fact
    exact handlePrepare_follows stamped valid holds fact
  | prepareOK msg =>
    rw [same] at fact
    exact handlePrepareOK_follows sized valid holds live fact
  | commit msg =>
    rw [same] at fact
    exact handleCommit_follows valid holds live fact
  | requestStateTransfer msg =>
    rw [same] at fact
    exact handleRequestStateTransfer_follows valid holds le_rfl fact
  | stateTransfer msg =>
    rw [same] at fact
    obtain ⟨_,dst,transfer⟩ := fact
    rw [target] at dst; cases dst
    exact handleStateTransfer_follows stamped valid holds live transfer (guarded.transfer msg same)
  | startViewChange msg => exact handleStartViewChange_follows holds
  | doViewChange msg =>
    rw [same] at fact
    have leads : env.leader msg.view = i := by
      have := fact.1
      rw [target] at this
      exact (Address.replica.inj this).symm
    have selected := guarded.change
    rw [same] at selected
    exact handleDoViewChange_follows stamped sized valid related.replicas live leads fact.2 selected
  | startView msg =>
    rw [same] at fact
    have empty := guarded.change
    rw [same] at empty
    exact handleStartView_follows stamped valid holds live fact empty

theorem timerFired_follows (valid : Valid env.leader rules a) (holds : Holds a i r) (armed : r.armed timer = true) :
    Follows rules i floor a r (timerFired env i r timer) := by
  cases timer with
  | viewChange => exact startViewChange_follows holds (Nat.lt_succ_self _)
  | nullCommit => exact sendNullCommit_follows holds valid (holds.beating armed)
  | stateTransfer => exact .silent {holds with} le_rfl
  | resendPrepare => exact resendPrepare_follows holds
  | closeBatch =>
    obtain ⟨normal,leads⟩ := holds.closing armed
    exact closeBatch_follows holds normal leads

theorem sendRequest_requests (mem : p ∈ (Client.sendRequest clientid req : List (Packet n (Message n)))) :
    Asks p :=
  .inl ⟨_,mem_toAll mem⟩

theorem resendRequest_requests (mem : p ∈ (Client.resendRequest clientid c reqId : List (Packet n (Message n)))) :
    Asks p := by
  unfold Client.resendRequest at mem
  split at mem
  · cases mem
  · exact sendRequest_requests mem

inductive Taken (s : System env) : Action env.config.n → System env → Prop where
  | received {p : Packet env.config.n (Message env.config.n)} (sent : p ∈ s.network) (target : p.dst = .replica i)
      (live : (s.replicas i).panicked = false) :
      Taken s (.deliver p stray) (s.perform i (receiveMessage env i (s.replicas i) p.src stray p.msg))
  | fired (armed : (s.replicas i).armed timer = true) :
      Taken s (.timeout i timer) (s.perform i (timerFired env i (s.replicas i) timer))
  | client {sent : List (Packet env.config.n (Message env.config.n))}
      (requests : ∀ p ∈ sent, Asks p) :
      Taken s act (s.clientDoes clientid c sent)

theorem clientReceives_taken (done : s.clientReceives clientid msg = some t) : Taken s act t := by
  unfold System.clientReceives at done
  split at done
  · cases done; exact .client (by simp)
  · cases done; exact .client (by simp)
  · cases done

theorem step_taken (done : s.step act = some t) : Taken s act t := by
  cases act with
  | deliver p stray =>
    dsimp only [System.step] at done
    split at done
    next sent =>
      split at done
      next i target =>
        split at done
        · cases done
        next live =>
          cases done
          exact .received sent target (by simpa using live)
      · exact clientReceives_taken done
    · cases done
  | timeout i timer =>
    obtain ⟨armed,rfl⟩ := of_guard done
    exact .fired armed.2
  | invoke id request =>
    cases done
    exact .client fun p mem => sendRequest_requests mem
  | invokeUnlogged id idx request =>
    cases done
    exact .client (forall_mem_singleton.mpr (.inr ⟨_,rfl⟩))
  | resend id reqId =>
    dsimp only [System.step] at done
    split at done
    · cases done
      exact .client fun p mem => resendRequest_requests mem
    · cases done
  | giveUp id reqId =>
    dsimp only [System.step] at done
    split at done
    · cases done; exact .client (by simp)
    · cases done

section
variable (stamped : rules.stamp = Prod.fst) (sized : env.config.n = 2 * env.config.f + 1) (related : Related rules s a)
include stamped sized related

theorem taken_related (taken : Taken s act t)
    (guarded : ∀ p stray i, act = .deliver p stray → p ∈ s.network → p.dst = .replica i → Guarded rules s i stray p.msg) :
    ∃ b, Related rules t b ∧ Onward s a t b := by
  cases taken with
  | received sent target live =>
    exact perform_related related
      (receiveMessage_follows stamped sized related live sent target (guarded _ _ _ rfl sent target))
  | fired armed => exact perform_related related (timerFired_follows related.valid (related.replicas _) armed)
  | client requests => exact ⟨a,clientDoes_related related requests,.refl,fun _ => le_rfl⟩

theorem step_related (taken : s.step act = some t) (guarded : act.Delivers (Guarded rules s)) :
    ∃ b, Related rules t b ∧ Onward s a t b := by
  apply taken_related stamped sized related (step_taken taken)
  rintro _ _ _ rfl _ target
  exact guarded.to target

end

theorem reached_related {allow : System env → Action env.config.n → Prop} (stamped : rules.stamp = Prod.fst)
    (sized : env.config.n = 2 * env.config.f + 1)
    (guards : ∀ s a act, Related rules s a → allow s act → act.Delivers (Guarded rules s))
    (reached : Reached env app allow s) : ∃ a, Related rules s a := by
  induction reached with
  | initial => exact ⟨_,initial_related rules app⟩
  | step _ allowed taken ih =>
    obtain ⟨a,related⟩ := ih
    obtain ⟨b,after,_⟩ := step_related stamped sized related taken (guards _ a _ related allowed)
    exact ⟨b,after⟩

theorem executed_settled (related : Related rules s a) (i : Fin env.config.n) :
    ∃ last done, (s.replicas i).executed = numbered done ∧ done <+: (s.replicas i).log.items ∧
      Settled env.leader a last done := by
  have holds := related.replicas i
  obtain ⟨last,stands⟩ := holds.stands
  exact ⟨last,_,holds.executed, take_prefix _ _,stands.settled⟩

theorem related_agreement (related : Related rules s a) : Agreement s := by
  intro i j k x y left right
  obtain ⟨_,_,one,_,first⟩ := executed_settled related i
  obtain ⟨_,_,two,_,second⟩ := executed_settled related j
  rw [one] at left
  rw [two] at right
  obtain ⟨p,_,rfl,here⟩ := mem_numbered.mp left
  obtain ⟨q,_,_,there⟩ := mem_numbered.mp right
  obtain rfl : p = q := by omega
  rcases settled_agree related.valid first second with ⟨rest,rfl⟩ | ⟨rest,rfl⟩
  · rw [List.getElem?_append_left (List.getElem?_eq_some_iff.mp here).1,here] at there
    exact congrArg Prod.snd (Option.some.inj there)
  · rw [List.getElem?_append_left (List.getElem?_eq_some_iff.mp there).1,there] at here
    exact (congrArg Prod.snd (Option.some.inj here)).symm

-- Two logs with an entry of one view in one place are the same up to there.
def LogsMatch (s : System env) : Prop :=
  ∀ i j (k v : Nat) x y, (s.replicas i).log.items[k]? = some (v,x) → (s.replicas j).log.items[k]? = some (v,y) →
    (s.replicas i).log.items.take (k+1) = (s.replicas j).log.items.take (k+1)

theorem related_logsMatch (related : Related rules s a) (stamped : rules.stamp = Prod.fst) : LogsMatch s := by
  intro i j k v x y left right
  obtain ⟨_,mine⟩ := (related.replicas i).stands
  obtain ⟨_,theirs⟩ := (related.replicas j).stands
  obtain ⟨_,full,led,one⟩ := related.valid.origin i _ _ mine.held k _ left
  obtain ⟨_,_,same,two⟩ := related.valid.origin j _ _ theirs.held k _ right
  rw [stamped] at led same
  cases led.symm.trans same
  -- Both are the first k + 1 entries of what the leader of that view had.
  have long {log : List (Nat × Request)} {e : Nat × Request} (got : log[k]? = some e) : (log.take (k+1)).length = k + 1 :=
    length_take_of_le (List.getElem?_eq_some_iff.mp got).1
  exact (prefix_of_prefix_length_le one two (by rw [long left,long right])).eq_of_length (by rw [long left,long right])

def NotStateTransfer : Message n → Prop
  | .stateTransfer _ => False
  | _ => True

instance : DecidablePred (NotStateTransfer : Message n → Prop) := fun msg => by
  unfold NotStateTransfer; split <;> infer_instance

instance (s : System env) (i : Fin env.config.n) (stray : Stray env.config.n) : DecidablePred (ViewChangeFits s i stray) := fun msg => by
  unfold ViewChangeFits; split <;> infer_instance

def anyLog : Rules (Nat × Request) := ⟨Prod.fst,fun _ => True,trivial,fun _ _ => trivial⟩

def RankedViewChanges (s : System env) (act : Action env.config.n) : Prop :=
  act.Delivers fun i stray msg => NotStateTransfer msg ∧ ViewChangeFits s i stray msg

instance (s : System env) (act : Action env.config.n) : Decidable (RankedViewChanges s act) :=
  inferInstanceAs (Decidable (act.Delivers _))

theorem ranked_related {app : σ} (sized : env.config.n = 2 * env.config.f + 1) (reached : Reached env app RankedViewChanges s) :
    ∃ a, Related anyLog s a := by
  refine reached_related rfl sized ?_ reached
  intro s a act _ allowed
  refine allowed.mono ?_
  rintro i stray msg ⟨plain,fits⟩
  refine ⟨fits,?_,fun _ _ _ _ _ _ _ => trivial⟩
  rintro _ rfl
  exact plain.elim

-- Agreement, in runs without state transfer whose view changes rank logs rightly.
theorem agreement_of_ranked_view_changes (env : Env σ) (app : σ) (s : System env)
    (sized : env.config.n = 2 * env.config.f + 1)
    (reached : Reached env app RankedViewChanges s) :
    Agreement s := by
  obtain ⟨_,related⟩ := ranked_related sized reached
  exact related_agreement related

theorem logs_match_of_ranked_view_changes (env : Env σ) (app : σ) (s : System env) (sized : env.config.n = 2 * env.config.f + 1)
    (reached : Reached env app RankedViewChanges s) :
    LogsMatch s := by
  obtain ⟨_,related⟩ := ranked_related sized reached
  exact related_logsMatch related rfl

-- Three replicas of an application that replicates everything, and packets of
-- theirs; every client below makes one request.
def echo : AppReplica Unit := ⟨fun _ _ op => ((),true,op),fun _ _ op => ((),op),fun _ op => ((),op)⟩

def three : Env Unit := ⟨⟨3,1,three_replicas⟩,1,echo⟩

def blank : Stray 3 := ⟨0,⟨0,0,0,0,[],0⟩⟩

def between (i j : Fin 3) (msg : Message 3) : Action 3 := .deliver ⟨.replica i,.replica j,msg⟩ blank

def asks (clientid : Nat) (i : Fin 3) (op : String) : Action 3 :=
  .deliver ⟨.client clientid,.replica i,.request ⟨op,clientid,1⟩⟩ blank

def entry (view opnum : Nat) (op : String) (clientid : Nat) : LogEntry := ⟨⟨view,opnum⟩,.prepared,⟨op,clientid,1⟩⟩

def handover : List (Action 3) :=
  [.invoke 7 "a",asks 7 0 "a",between 0 1 (.prepare ⟨0,1,1,[⟨"a",7,1⟩]⟩),between 1 0 (.prepareOK ⟨0,1,1⟩),
    .timeout 2 .viewChange,between 2 1 (.startViewChange ⟨1,2,0⟩),between 1 2 (.startViewChange ⟨1,1,0⟩),
    between 2 1 (.doViewChange ⟨1,0,0,0,[],2⟩),between 1 2 (.startView ⟨1,1,0,[entry 0 1 "a" 7]⟩),
    between 2 1 (.prepareOK ⟨1,1,2⟩),.resend 7 1,asks 7 1 "a",.invoke 8 "b",asks 8 1 "b",
    between 1 2 (.prepare ⟨1,2,2,[⟨"b",8,1⟩]⟩),between 2 1 (.prepareOK ⟨1,2,2⟩)]

theorem agreement_after_handover : ∃ s : System three, Agreement s ∧
    (s.replicas (0 : Fin 3)).executed = [(1,⟨"a",7,1⟩)] ∧
    (s.replicas (1 : Fin 3)).executed = [(1,⟨"a",7,1⟩),(2,⟨"b",8,1⟩)] := by
  obtain ⟨s,reached,seen⟩ := (machine three ()).reached_of_run RankedViewChanges (fun s =>
      (s.replicas (0 : Fin 3)).executed = [(1,⟨"a",7,1⟩)] ∧ (s.replicas (1 : Fin 3)).executed = [(1,⟨"a",7,1⟩),(2,⟨"b",8,1⟩)])
    handover (by decide +kernel)
  exact ⟨s,agreement_of_ranked_view_changes three () s rfl reached,seen⟩

theorem logs_match_after_handover : ∃ s : System three, LogsMatch s ∧ (s.replicas (0 : Fin 3)).log.items = [(0,⟨"a",7,1⟩)] ∧
    (s.replicas (2 : Fin 3)).log.items = [(0,⟨"a",7,1⟩),(1,⟨"b",8,1⟩)] := by
  obtain ⟨s,reached,seen⟩ := (machine three ()).reached_of_run RankedViewChanges (fun s =>
      (s.replicas (0 : Fin 3)).log.items = [(0,⟨"a",7,1⟩)] ∧
      (s.replicas (2 : Fin 3)).log.items = [(0,⟨"a",7,1⟩),(1,⟨"b",8,1⟩)]) handover (by decide +kernel)
  exact ⟨s,logs_match_of_ranked_view_changes three () s rfl reached,seen⟩

-- Replica 0 logs "a" in view 0 and replica 1 logs "b" in view 1. View 3 commits
-- "a" on replicas 0 and 2, under the viewstamp of view 0; so in view 4 replica 1
-- takes its own "b" of view 1 for the later log and commits it in the same place.
def overtaken : List (Action 3) :=
  [.invoke 7 "a",asks 7 0 "a",
    .timeout 2 .viewChange,between 2 1 (.startViewChange ⟨1,2,0⟩),between 1 2 (.startViewChange ⟨1,1,0⟩),
    between 2 1 (.doViewChange ⟨1,0,0,0,[],2⟩),.invoke 8 "b",asks 8 1 "b",
    .timeout 2 .viewChange,.timeout 2 .viewChange,between 2 0 (.startViewChange ⟨3,2,0⟩),
    between 0 2 (.startViewChange ⟨3,0,0⟩),between 2 0 (.doViewChange ⟨3,0,0,0,[],2⟩),
    between 0 2 (.startView ⟨3,1,0,[entry 0 1 "a" 7]⟩),between 2 0 (.prepareOK ⟨3,1,2⟩),
    .timeout 2 .viewChange,between 2 1 (.startViewChange ⟨4,2,0⟩),between 1 2 (.startViewChange ⟨4,1,0⟩),
    between 2 1 (.doViewChange ⟨4,0,1,0,[entry 0 1 "a" 7],2⟩),
    between 1 2 (.startView ⟨4,1,0,[entry 1 1 "b" 8]⟩),between 2 1 (.prepareOK ⟨4,1,2⟩)]

theorem committed_request_overtaken : ¬ ∀ (env : Env Unit) (s : System env), env.config.n = 2 * env.config.f + 1 →
    Reached env () (fun _ act => act.Delivers fun _ _ => NotStateTransfer) s → Agreement s := by
  intro agree
  obtain ⟨s,reached,first,second⟩ := (machine three ()).reached_of_run (fun _ act => act.Delivers fun _ _ => NotStateTransfer) (fun s =>
      (s.replicas (0 : Fin 3)).executed = [(1,⟨"a",7,1⟩)] ∧ (s.replicas (1 : Fin 3)).executed = [(1,⟨"b",8,1⟩)])
    overtaken (by decide +kernel)
  have same := agree three s rfl reached (0 : Fin 3) (1 : Fin 3) 1 ⟨"a",7,1⟩ ⟨"b",8,1⟩
    (by rw [first]; simp) (by rw [second]; simp)
  exact absurd same (by decide)

-- No two entries of a log carry the same client request.
def requestKey (e : Nat × Request) : Nat × Nat := (e.2.clientid,e.2.clientreqid)

def distinctRequests : Rules (Nat × Request) where
  stamp := Prod.fst
  Sound log := (log.map requestKey).Nodup
  sound_nil := nodup_nil
  sound_shorter shorter sound := sound.sublist (shorter.sublist.map requestKey)

def DeliveryFits (s : System env) (i : Fin env.config.n) (stray : Stray env.config.n) : Message env.config.n → Prop
  | .stateTransfer msg => TransferFits i (s.replicas i) msg
  | .request req => RequestTabled i (s.replicas i) req
  | msg => ViewChangeFits s i stray msg

instance (s : System env) (i : Fin env.config.n) (stray : Stray env.config.n) : DecidablePred (DeliveryFits s i stray) := fun msg => by
  unfold DeliveryFits; split <;> infer_instance

theorem passed_untabled (passed : clientTableAnswer env i r remote req = none) :
    ¬ ∃ entry ∈ r.clientTable req.clientid, req.clientreqid ≤ entry.lastReqId := by
  rintro ⟨entry,got,_⟩
  unfold clientTableAnswer at passed
  rw [Option.mem_def.mp got] at passed
  dsimp only at passed
  split at passed
  · cases passed
  split at passed
  · split at passed
    · cases passed
    · cases passed
  · omega

theorem tabled_distinct (holds : Holds a i r) (valid : Valid env.leader distinctRequests a)
    (tabled : RequestTabled i r req) (normal : r.status = .normal) (leads : env.leader r.view = i)
    (passed : clientTableAnswer env i r remote req = none) (op : String) :
    distinctRequests.Sound (r.log.items ++ [(r.view,⟨op,req.clientid,req.clientreqid⟩)]) := by
  have sound := valid.sound _ _ _ (holds.now normal).1
  change ((r.log.items ++ [_]).map requestKey).Nodup
  rw [map_append,nodup_append]
  refine ⟨sound,by simp,?_⟩
  rintro _ old _ new rfl
  obtain ⟨_,mem,same⟩ := mem_map.mp old
  obtain ⟨entry,logged,rfl⟩ := mem_map.mp mem
  simp only [map_cons,map_nil,mem_singleton] at new
  rw [new] at same
  refine passed_untabled passed (tabled normal leads ⟨entry,logged,?_,?_⟩)
  · exact congrArg Prod.fst same
  · exact congrArg Prod.snd same

theorem related_atMostOnce (related : Related distinctRequests s a) : AtMostOnce s := by
  intro i k l x y left right client request
  obtain ⟨_,done,executed,inside,_⟩ := executed_settled related i
  obtain ⟨_,stands⟩ := (related.replicas i).stands
  have sound : (done.map requestKey).Nodup :=
    distinctRequests.sound_shorter inside (related.valid.sound _ _ _ stands.held)
  rw [executed] at left right
  obtain ⟨p,_,rfl,here⟩ := mem_numbered.mp left
  obtain ⟨q,_,rfl,there⟩ := mem_numbered.mp right
  have one : (done.map requestKey)[p]? = some (x.clientid,x.clientreqid) := by simp [here,requestKey]
  have two : (done.map requestKey)[q]? = some (x.clientid,x.clientreqid) := by simp [there,requestKey,client,request]
  have bound := (List.getElem?_eq_some_iff.mp one).1
  rw [(List.getElem?_inj bound sound).mp (one.trans two.symm)]

-- At most once, in runs whose view changes rank logs rightly, whose state transfers
-- fit, and whose leaders have a resent request of their log in their client table.
theorem atMostOnce_of_tabled_requests (env : Env σ) (app : σ) (s : System env)
    (sized : env.config.n = 2 * env.config.f + 1)
    (reached : Reached env app (fun s act => act.Delivers (DeliveryFits s)) s) : AtMostOnce s := by
  obtain ⟨a,related⟩ : ∃ a, Related distinctRequests s a := by
    refine reached_related rfl sized ?_ reached
    intro s a act related allowed
    refine allowed.mono ?_
    intro i stray msg fits
    refine ⟨?_,?_,?_⟩
    · cases msg with
      | doViewChange | startView => exact fits
      | _ => trivial
    · rintro _ rfl
      exact fits
    · rintro _ rfl normal leads _ passed op
      exact tabled_distinct (related.replicas i) related.valid fits normal leads passed op
  exact related_atMostOnce related

theorem atMostOnce_after_resend : ∃ s : System three, AtMostOnce s ∧
    (s.replicas (1 : Fin 3)).executed = [(1,⟨"a",7,1⟩),(2,⟨"b",8,1⟩)] := by
  obtain ⟨s,reached,seen⟩ := (machine three ()).reached_of_run (fun s act => act.Delivers (DeliveryFits s))
    (fun s => (s.replicas (1 : Fin 3)).executed = [(1,⟨"a",7,1⟩),(2,⟨"b",8,1⟩)]) handover (by decide +kernel)
  exact ⟨s,atMostOnce_of_tabled_requests three () s rfl reached,seen⟩

-- Replica 0 joins view 2 with two stale entries, so SendPrepareOKs starts at opnum
-- 2 and leaves "a" out of its client table. As leader of view 3 it takes the
-- resent "a" for a new request.
def resentToNewLeader : List (Action 3) :=
  [.invoke 5 "x",asks 5 0 "x",.invoke 6 "y",asks 6 0 "y",
    .timeout 2 .viewChange,between 2 1 (.startViewChange ⟨1,2,0⟩),between 1 2 (.startViewChange ⟨1,1,0⟩),
    between 2 1 (.doViewChange ⟨1,0,0,0,[],2⟩),between 1 2 (.startView ⟨1,0,0,[]⟩),
    .invoke 7 "a",asks 7 1 "a",between 1 2 (.prepare ⟨1,1,1,[⟨"a",7,1⟩]⟩),
    .invoke 8 "b",asks 8 1 "b",between 1 2 (.prepare ⟨1,2,2,[⟨"b",8,1⟩]⟩),
    .timeout 2 .viewChange,between 2 0 (.startViewChange ⟨2,2,0⟩),between 0 2 (.startViewChange ⟨2,0,0⟩),
    between 0 2 (.doViewChange ⟨2,0,2,0,[entry 0 1 "x" 5,entry 0 2 "y" 6],0⟩),
    between 2 0 (.startView ⟨2,2,0,[entry 1 1 "a" 7,entry 1 2 "b" 8]⟩),
    .timeout 0 .viewChange,between 0 2 (.startViewChange ⟨3,0,0⟩),between 2 0 (.startViewChange ⟨3,2,0⟩),
    between 2 0 (.doViewChange ⟨3,1,2,0,[entry 1 1 "a" 7,entry 1 2 "b" 8],2⟩),
    between 0 2 (.startView ⟨3,2,0,[entry 1 1 "a" 7,entry 1 2 "b" 8]⟩),
    .resend 7 1,asks 7 0 "a",between 0 2 (.prepare ⟨3,3,3,[⟨"a",7,1⟩]⟩),between 2 0 (.prepareOK ⟨3,3,2⟩)]

theorem resent_request_executed_twice : ¬ ∀ (env : Env Unit) (s : System env), env.config.n = 2 * env.config.f + 1 →
    Reached env () (fun _ _ => True) s → AtMostOnce s := by
  intro once
  obtain ⟨s,reached,seen⟩ := (machine three ()).reached_of_run (fun _ _ => True)
    (fun s => (s.replicas (0 : Fin 3)).executed = [(1,⟨"a",7,1⟩),(2,⟨"b",8,1⟩),(3,⟨"a",7,1⟩)]) resentToNewLeader (by decide +kernel)
  have same := once three s rfl reached (0 : Fin 3) 1 3 ⟨"a",7,1⟩ ⟨"a",7,1⟩
    (by rw [seen]; simp) (by rw [seen]; simp) rfl rfl
  exact absurd same (by decide)

end DbExp.Tapir.Vr
