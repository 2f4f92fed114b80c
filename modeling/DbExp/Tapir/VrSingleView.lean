import DbExp.Tapir.VrSafety

namespace DbExp.Tapir.Vr
open ViewLog

variable {env : Env σ} {s t : System env} {me : Fin env.config.n} {r : Replica env.config.n σ} {e : Effect env.config.n σ}

-- Runs in which no view change timer fires. A StartViewChange is only ever sent
-- because such a timer fired somewhere.
def Action.KeepsView : Action n → Prop
  | .timeout _ .viewChange => False
  | _ => True

instance (act : Action n) : Decidable act.KeepsView := by
  unfold Action.KeepsView; rcases act with _ | ⟨_,_ | _⟩ <;> infer_instance

structure InFirstView (r : Replica n σ) : Prop where
  view : r.view = 0
  normal : r.status = .normal
  prepared : r.lastPrepare.view = 0

-- What is in flight while every replica is in view 0. The leader never asks for a
-- state transfer, so none is ever addressed to it.
def FirstViewPacket (env : Env σ) (p : Packet env.config.n (Message env.config.n)) : Prop :=
  match p.msg with
  | .prepare msg => msg.view = 0
  | .prepareOK msg => msg.view = 0
  | .commit msg => msg.view = 0
  | .requestStateTransfer msg => msg.view = 0 ∧ p.src ≠ .replica (env.leader 0)
  | .stateTransfer msg => msg.view = 0 ∧ p.dst ≠ .replica (env.leader 0)
  | .startViewChange _ => False
  | .doViewChange _ => False
  | .startView _ => False
  | _ => True

structure Stays (env : Env σ) (e : Effect env.config.n σ) : Prop where
  replica : InFirstView e.replica
  sent : ∀ p ∈ e.sent, FirstViewPacket env p

theorem Stays.silent (first : InFirstView r) : Stays env ⟨r,[]⟩ := ⟨first,by simp⟩

theorem Stays.one (first : InFirstView r) (plain : FirstViewPacket env p) : Stays env ⟨r,[p]⟩ :=
  ⟨first,List.forall_mem_singleton.mpr plain⟩

theorem Stays.all (first : InFirstView r) (plain : ∀ i, FirstViewPacket env ⟨.replica me,.replica i,msg⟩) :
    Stays env ⟨r,toAll env me msg⟩ := ⟨first,forall_toAll plain⟩

theorem Stays.andThen (stays : Stays env e) (next : ∀ r, InFirstView r → Stays env (after r)) :
    Stays env (e.andThen after) :=
  ⟨Effect.andThen_replica stays.replica (next _ stays.replica).replica,Effect.andThen_sent stays.sent (next _ stays.replica).sent⟩

section
variable (first : InFirstView r)
include first

theorem panic_stays : Stays env r.panic := .silent {first with}

theorem commitNext_stays : Stays env (commitNext env me r) := by
  unfold commitNext
  split
  · exact panic_stays {first with}
  refine ⟨{first with},?_⟩
  dsimp only
  split
  · exact List.forall_mem_singleton.mpr trivial
  · exact nofun

theorem commitLoop_stays : Stays env (commitLoop env me k r) := by
  induction k generalizing r with
  | zero => exact .silent first
  | succ k ih => exact (commitNext_stays first).andThen fun _ next => ih next

theorem sendPrepareOK_stays (i : Nat) : Stays env (sendPrepareOK env me r i) := by
  unfold sendPrepareOK
  split
  · exact .silent first
  · split
    · exact panic_stays first
    · exact .one {first with} first.view

theorem sendPrepareOKsLoop_stays :
    Stays env (sendPrepareOKsLoop env me places r) := by
  induction places generalizing r with
  | nil => exact .silent first
  | cons i rest ih => exact (sendPrepareOK_stays first i).andThen fun _ next => ih next

theorem requestStateTransfer_stays (follows : me ≠ env.leader 0) :
    Stays env (requestStateTransfer env me r) := by
  unfold requestStateTransfer
  split
  · exact .silent first
  · refine .all {first with} ?_
    intro i
    exact ⟨first.view,fun same => follows (Address.replica.inj same)⟩

theorem closeBatch_stays : Stays env (closeBatch env me r) := by
  unfold closeBatch
  dsimp only
  split
  · exact panic_stays first
  · exact .all {first with prepared := first.view} fun _ => first.view

theorem logRequest_stays (request : Request) : Stays env (logRequest env me r request) := by
  unfold logRequest
  refine Stays.andThen ?_ fun _ next => .silent {next with}
  split
  · exact closeBatch_stays {first with}
  · exact .silent {first with}

theorem handleRequest_stays : Stays env (handleRequest env me r remote req) := by
  unfold handleRequest
  split
  · exact .silent first
  split
  · exact .silent first
  dsimp only
  split
  next answer known =>
    exact ⟨{first with},(clientTableAnswer_replies known).all fun _ _ _ => trivial⟩
  · split
    · exact .one {first with} trivial
    · apply logRequest_stays
      exact {first with}

theorem handleUnloggedRequest_stays : Stays env (handleUnloggedRequest env me r remote req) := by
  unfold handleUnloggedRequest
  split
  · exact .silent first
  · exact .one {first with} trivial

theorem prepareLoop_stays :
    InFirstView (prepareLoop view op requests r) := by
  induction requests generalizing op r with
  | nil => exact first
  | cons req rest ih =>
    unfold prepareLoop
    split
    · exact ih first
    · apply ih
      exact {first with}

theorem handlePrepare_stays (current : msg.view = 0) :
    Stays env (handlePrepare env me r remote msg) := by
  have view := first.view
  unfold handlePrepare
  split
  · exact .silent first
  split
  · exact .silent first
  split
  · omega
  split
  · exact panic_stays first
  rename_i follower
  have follows : me ≠ env.leader 0 := fun same => follower (by rw [Replica.AmLeader,view]; exact same.symm)
  dsimp only
  split
  · exact .one {first with} current
  split
  · refine (requestStateTransfer_stays ?_ follows).andThen fun _ next => .silent {next with}
    exact {first with}
  · refine .one (prepareLoop_stays ?_) current
    exact {first with}

theorem handlePrepareOK_stays (current : msg.view = 0) : Stays env (handlePrepareOK env me r msg) := by
  have view := first.view
  unfold handlePrepareOK
  split
  · exact .silent first
  split
  · exact .silent first
  split
  · omega
  split
  · exact .silent first
  dsimp only
  split
  · exact .silent {first with}
  refine Stays.andThen (commitLoop_stays (by exact {first with})) ?_
  intro r next
  split
  · exact .silent next
  · exact .all {next with} fun _ => next.view

theorem handleCommit_stays (current : msg.view = 0) : Stays env (handleCommit env me r msg) := by
  have view := first.view
  unfold handleCommit
  split
  · exact .silent first
  split
  · exact .silent first
  split
  · omega
  split
  · exact panic_stays first
  rename_i follower
  have follows : me ≠ env.leader 0 := fun same => follower (by rw [Replica.AmLeader,view]; exact same.symm)
  dsimp only
  split
  · exact .silent {first with}
  split
  · apply requestStateTransfer_stays _ follows
    exact {first with}
  · exact commitLoop_stays (by exact {first with})

theorem handleRequestStateTransfer_stays (current : msg.view = 0)
    (follows : remote ≠ .replica (env.leader 0)) : Stays env (handleRequestStateTransfer env me r remote msg) := by
  have view := first.view
  unfold handleRequestStateTransfer
  split
  · exact .silent first
  · split
    · omega
    · exact .one first ⟨view,follows⟩

theorem transferLoop_stays :
    Stays env (transferLoop entries oldLastOp r).2 := by
  induction entries generalizing oldLastOp r with
  | nil => exact .silent first
  | cons new rest ih =>
    unfold transferLoop
    split
    · exact ih first
    split
    · split
      · exact panic_stays first
      · split
        · exact ih first
        · exact ih (by exact {first with})
    · exact ih (by exact {first with})

theorem handleStateTransfer_stays (current : msg.view = 0) :
    Stays env (handleStateTransfer env me r msg) := by
  unfold handleStateTransfer
  split
  · exact .silent first
  refine (transferLoop_stays first).andThen ?_
  intro r next
  have same : ¬ msg.view > r.view := by rw [current,next.view]; omega
  rw [if_neg same]
  refine Stays.andThen (Stays.andThen (commitLoop_stays next) ?_) fun _ last => .silent {last with}
  intro r after
  exact sendPrepareOKsLoop_stays after

end

structure SingleView (s : System env) : Prop where
  replicas : ∀ i, InFirstView (s.replicas i)
  network : ∀ p ∈ s.network, FirstViewPacket env p

theorem receiveMessage_stays (single : SingleView s) (sent : p ∈ s.network) :
    Stays env (receiveMessage env me (s.replicas me) p.src stray p.msg) := by
  have first := single.replicas me
  have plain := single.network p sent
  unfold FirstViewPacket at plain
  cases same : p.msg with
  | request req => exact handleRequest_stays first
  | unloggedRequest req => exact handleUnloggedRequest_stays first
  | reply msg | unloggedReply reply clientreqid => exact panic_stays first
  | prepare msg => rw [same] at plain; exact handlePrepare_stays first plain
  | prepareOK msg => rw [same] at plain; exact handlePrepareOK_stays first plain
  | commit msg => rw [same] at plain; exact handleCommit_stays first plain
  | requestStateTransfer msg => rw [same] at plain; exact handleRequestStateTransfer_stays first plain.1 plain.2
  | stateTransfer msg => rw [same] at plain; exact handleStateTransfer_stays first plain.1
  | startViewChange msg | doViewChange msg | startView msg => rw [same] at plain; exact plain.elim

theorem resendPrepare_stays (first : InFirstView r) : Stays env (resendPrepare env me r) := by
  unfold resendPrepare
  split
  · exact .silent first
  · exact .all first fun _ => first.prepared

theorem timerFired_stays (first : InFirstView r) (other : timer ≠ .viewChange) : Stays env (timerFired env me r timer) := by
  cases timer with
  | viewChange => exact absurd rfl other
  | nullCommit => exact .all first fun _ => first.view
  | stateTransfer => exact .silent {first with}
  | resendPrepare => exact resendPrepare_stays first
  | closeBatch => exact closeBatch_stays first

theorem perform_single (single : SingleView s) (stays : Stays env e) : SingleView (s.perform me e) :=
  ⟨(Function.forall_update_iff s.replicas fun _ r => InFirstView r).mpr ⟨stays.replica,fun i _ => single.replicas i⟩,
    List.forall_mem_append.mpr ⟨single.network,stays.sent⟩⟩

theorem clientDoes_single (single : SingleView s)
    (requests : ∀ p ∈ sent, Asks p) :
    SingleView (s.clientDoes clientid c sent) := by
  refine ⟨single.replicas,?_⟩
  refine List.forall_mem_append.mpr ⟨single.network,fun p new => ?_⟩
  unfold FirstViewPacket
  rcases requests p new with ⟨_,same⟩ | ⟨_,same⟩ <;> rw [same] <;> trivial

theorem step_single (single : SingleView s) (keeps : act.KeepsView) (taken : s.step act = some t) : SingleView t := by
  cases step_taken taken with
  | received sent => exact perform_single single (receiveMessage_stays single sent)
  | @fired i timer =>
    refine perform_single single (timerFired_stays (single.replicas i) ?_)
    rintro rfl
    exact keeps
  | client requests => exact clientDoes_single single requests

theorem initial_single (app : σ) : SingleView (System.initial app : System env) :=
  ⟨fun _ => ⟨rfl,rfl,rfl⟩,nofun⟩

theorem single_guarded (single : SingleView s) (sent : p ∈ s.network) (target : p.dst = .replica me) :
    Guarded anyLog s me stray p.msg := by
  have plain := single.network p sent
  have first := single.replicas me
  unfold FirstViewPacket at plain
  refine ⟨?_,?_,fun _ _ _ _ _ _ _ => trivial⟩
  · cases same : p.msg with
    | doViewChange msg | startView msg => rw [same] at plain; exact plain.elim
    | _ => trivial
  intro msg same
  rw [same] at plain
  refine .inr (.inl ⟨plain.1.trans first.view.symm,first.normal,?_⟩)
  intro leads
  rw [Replica.AmLeader,first.view] at leads
  exact absurd (target.trans (by rw [← leads])) plain.2

theorem single_related (sized : env.config.n = 2 * env.config.f + 1)
    (reached : Reached env app (fun _ act => act.KeepsView) s) : SingleView s ∧ ∃ a, Related anyLog s a := by
  induction reached with
  | initial => exact ⟨initial_single app,_,initial_related anyLog app⟩
  | @step s t act _ keeps taken ih =>
    obtain ⟨single,a,related⟩ := ih
    refine ⟨step_single single keeps taken,(taken_related rfl sized related (step_taken taken) ?_).imp fun _ both => both.1⟩
    intro p stray i _ sent target
    exact single_guarded single sent target

def LogPrefix (l more : Log) : Prop := l.start = more.start ∧ l.entries.map stamped <+: more.entries.map stamped

variable {l m : Log} {mine : LogEntry} {k : Nat}

theorem stamped_of_item (wf : l.Wf) (here : l.entries[k]? = some mine) : stamped mine = (⟨mine.item.1,k+1⟩,mine.item.2) := by
  have place := wf.places k mine here
  simp only [Nat.zero_add] at place
  unfold stamped LogEntry.item
  rw [← place]

theorem stamped_agree (wf : l.Wf) (other : m.Wf) (inside : l.items <+: m.items) (here : l.entries[k]? = some mine) :
    ∃ theirs, m.entries[k]? = some theirs ∧ stamped theirs = stamped mine := by
  have item : l.items[k]? = some mine.item := by simp [Log.items,here]
  obtain ⟨_,same⟩ := inside
  have there : m.items[k]? = some mine.item := by
    rw [← same,List.getElem?_append_left (List.getElem?_eq_some_iff.mp item).1,item]
  simp only [Log.items,List.getElem?_map] at there
  obtain ⟨theirs,got,equal⟩ := Option.map_eq_some_iff.mp there
  exact ⟨theirs,got,by rw [stamped_of_item wf here,stamped_of_item other got,equal]⟩

theorem items_logPrefix (wf : l.Wf) (other : m.Wf) (inside : l.items <+: m.items) : LogPrefix l m := by
  refine ⟨wf.start.trans other.start.symm,List.prefix_iff_getElem?.mpr ?_⟩
  intro k bound
  rw [List.length_map] at bound
  obtain ⟨_,got,equal⟩ := stamped_agree wf other inside (List.getElem?_eq_getElem bound)
  simp [got,equal]

theorem held_first (single : SingleView s) (related : Related rules s a) (i : Fin env.config.n) :
    a.held i 0 = some (s.replicas i).log.items := by
  have now := ((related.replicas i).now (single.replicas i).normal).1
  rwa [(single.replicas i).view] at now

theorem items_inside (single : SingleView s) (related : Related rules s a) (i : Fin env.config.n) :
    (s.replicas i).log.items <+: (s.replicas (env.leader 0)).log.items := by
  obtain ⟨_,source,_,inside⟩ := related.valid.between _ _ _ (held_first single related i)
  rw [held_first single related] at source
  cases source
  exact inside

theorem committed_held (sized : env.config.n = 2 * env.config.f + 1) (single : SingleView s) (related : Related rules s a)
    (some : 0 < (s.replicas (env.leader 0)).lastCommitted) :
    ∃ q : Finset (Fin env.config.n), env.config.f ≤ q.card ∧ env.leader 0 ∉ q ∧
      ∀ j ∈ q, (s.replicas (env.leader 0)).lastCommitted ≤ (s.replicas j).log.items.length := by
  have holds := related.replicas (env.leader 0)
  have settled := (holds.now (single.replicas _).normal).2
  rw [(single.replicas _).view] at settled
  have count : ((s.replicas (env.leader 0)).log.items.take (s.replicas (env.leader 0)).lastCommitted).length =
      (s.replicas (env.leader 0)).lastCommitted := by
    rw [List.length_take]; exact Nat.min_eq_left holds.committed
  rcases settled with none | ⟨w,_,_,q,majority,all⟩
  · rw [none] at count; simp at count; omega
  obtain rfl : w = 0 := by omega
  refine ⟨q.erase (env.leader 0),?_,Finset.notMem_erase _ _,?_⟩
  · have size := Finset.pred_card_le_card_erase (s := q) (a := env.leader 0)
    unfold Majority at majority
    rw [Fintype.card_fin] at majority
    omega
  intro j mem
  obtain ⟨_,held,enough⟩ := all j (Finset.mem_of_mem_erase mem)
  rw [held_first single related] at held
  cases held
  rwa [count] at enough

-- Every log is a prefix of the leader's, and what the leader has committed is
-- also held by `f` others.
structure LeaderLogPrefixes (s : System env) : Prop where
  logs : ∀ i, LogPrefix (s.replicas i).log (s.replicas (env.leader 0)).log
  counters : ∀ i, (s.replicas i).lastCommitted ≤ (s.replicas i).lastOp ∧ (s.replicas i).lastOp = (s.replicas i).log.lastOpnum
  committed : ∀ k, 1 ≤ k → k ≤ (s.replicas (env.leader 0)).lastCommitted →
    ∃ e, (s.replicas (env.leader 0)).log.find k = some e ∧
    ∃ q : Finset (Fin env.config.n), env.config.f ≤ q.card ∧ env.leader 0 ∉ q ∧
      ∀ j ∈ q, ∃ mine, (s.replicas j).log.find k = some mine ∧ stamped mine = stamped e

theorem logs_prefix_leader_in_first_view (env : Env σ) (app : σ) (s : System env)
    (sized : env.config.n = 2 * env.config.f + 1) (reached : Reached env app (fun _ act => act.KeepsView) s) :
    LeaderLogPrefixes s := by
  obtain ⟨single,_,related⟩ := single_related sized reached
  refine ⟨?_,?_,?_⟩
  · intro i
    exact items_logPrefix (related.replicas i).wf (related.replicas _).wf (items_inside single related i)
  · intro i
    have holds := related.replicas i
    rw [Log.lastOpnum_eq holds.wf,holds.lastOp]
    exact ⟨holds.committed,rfl⟩
  intro k first committed
  obtain ⟨p,rfl⟩ : ∃ p, k = p+1 := ⟨k - 1,by omega⟩
  have leader := related.replicas (env.leader 0)
  have bound := leader.committed
  rw [Log.items_length] at bound
  have here : (s.replicas (env.leader 0)).log.entries[p]? = some _ := List.getElem?_eq_getElem (by omega)
  refine ⟨_,(Log.find_eq leader.wf p).trans here,?_⟩
  obtain ⟨q,size,other,all⟩ := committed_held sized single related (by omega)
  refine ⟨q,size,other,?_⟩
  intro j member
  have enough := all j member
  rw [Log.items_length] at enough
  have mine : (s.replicas j).log.entries[p]? = some _ := List.getElem?_eq_getElem (by omega)
  obtain ⟨_,found,equal⟩ := stamped_agree (related.replicas j).wf leader.wf (items_inside single related j) mine
  rw [here] at found
  cases found
  exact ⟨_,(Log.find_eq (related.replicas j).wf p).trans mine,equal.symm⟩

-- Replica 2 misses the first Prepare, asks for a state transfer on the second and
-- acknowledges both operations; replica 1 has heard of neither.
def caughtUp : List (Action 3) :=
  [.invoke 7 "a",asks 7 0 "a",.invoke 8 "b",asks 8 0 "b",between 0 2 (.prepare ⟨0,2,2,[⟨"b",8,1⟩]⟩),
    between 2 0 (.requestStateTransfer ⟨0,0⟩),
    between 0 2 (.stateTransfer ⟨0,0,[entry 0 1 "a" 7,entry 0 2 "b" 8]⟩),between 2 0 (.prepareOK ⟨0,2,2⟩)]

theorem logs_prefix_leader_after_transfer : ∃ s : System three, LeaderLogPrefixes s ∧
    (s.replicas (0 : Fin 3)).lastCommitted = 2 ∧ (s.replicas (1 : Fin 3)).lastOp = 0 := by
  obtain ⟨s,reached,seen⟩ := (machine three ()).reached_of_run (fun _ act => act.KeepsView)
    (fun s => (s.replicas (0 : Fin 3)).lastCommitted = 2 ∧ (s.replicas (1 : Fin 3)).lastOp = 0) caughtUp (by decide +kernel)
  exact ⟨s,logs_prefix_leader_in_first_view three () s rfl reached,seen⟩

end DbExp.Tapir.Vr
