import DbExp.Foundation.Machine
import DbExp.Tapir.IrFinality

namespace DbExp.Tapir.Ir

section
variable (env : Env σ) (me : Fin env.config.n)

-- The constructor of a replica that finds the view information of an earlier process
-- on disk. It never starts in a view it would lead if its successor has another leader.
def Replica.recover (view latestNormalView : Nat) (app : σ) : Effect env.config.n σ :=
  let next := if me = env.config.getLeaderIndex (view + 1) then view + 2 else view + 1
  let r := {Replica.new env app with
    status := .recovering
    view := next
    latestNormalView := latestNormalView}
  ⟨r,broadcastDoViewChangeMessages env me r⟩

-- A recovering replica and all it sent. `returned` tells that a StartView has made it
-- NORMAL; `heard` lists the view changes it was told of, and by whom, unless they were
-- for a view it had left.
structure Recovery where
  replica : Replica env.config.n σ
  sent : List (Packet env.config.n (Message env.config.n))
  returned : Bool
  heard : List (Nat × Fin env.config.n)

inductive RecoveryEvent (n : Nat) where
  | doViewChange (msg : DoViewChangeMessage n)
  | startView (msg : StartViewMessage)
  | viewChangeTimeout
  deriving DecidableEq

variable {env}

def Recovery.also (s : Recovery env) (e : Effect env.config.n σ) : Recovery env :=
  {s with
    replica := e.replica
    sent := s.sent ++ e.sent}

def Recovery.step (s : Recovery env) (event : RecoveryEvent env.config.n) : Option (Recovery env) :=
  if s.replica.panicked then none
  else
    match event with
    | .doViewChange msg => some {s.also (handleDoViewChange env me s.replica msg) with
        heard := if s.replica.view ≤ msg.newView then (msg.newView,msg.replicaIdx) :: s.heard else s.heard}
    | .startView msg =>
      let e := handleStartView env s.replica msg
      some {s.also e with returned := s.returned || decide (s.replica.status = .recovering ∧ e.replica.status = .normal)}
    | .viewChangeTimeout => some (s.also (handleViewChangeTimeout env me s.replica))

variable (env)

def recoveryRun (view latestNormalView : Nat) (app : σ) : Machine (Recovery env) (RecoveryEvent env.config.n) where
  initial :=
    let e := Replica.recover env me view latestNormalView app
    ⟨e.replica,e.sent,false,[]⟩
  step := Recovery.step me

variable {env}

-- Until a StartView has returned it to NORMAL, a replica has merged no records, nor
-- died in the attempt, and is the source of no StartView.
def LeadsOnlyAfterReturn (s : Recovery env) : Prop :=
  s.returned = false → s.replica.merges = [] ∧ s.replica.panicked = false ∧ ∀ p ∈ s.sent, ∀ msg, p.msg ≠ .startView msg

def heardFrom (heard : List (Nat × Fin n)) (view : Nat) : Finset (Fin n) :=
  ((heard.filter (fun h => h.1 = view)).map Prod.snd).toFinset

-- The view changes to a view that a recovering replica would lead come from fewer
-- than f replicas.
def FewCallers (s : Recovery env) : RecoveryEvent env.config.n → Prop
  | .doViewChange msg => s.replica.status = .recovering → s.replica.view ≤ msg.newView →
      me = env.config.getLeaderIndex msg.newView → (insert msg.replicaIdx (heardFrom s.heard msg.newView)).card < env.config.f
  | _ => True

instance (s : Recovery env) : DecidablePred (FewCallers me s) := fun event => by
  cases event <;> unfold FewCallers <;> infer_instance

end

theorem mem_heardFrom {heard : List (Nat × Fin n)} : i ∈ heardFrom heard view ↔ (view,i) ∈ heard := by
  simp [heardFrom]

structure Waiting (env : Env σ) (r : Replica env.config.n σ) (heard : List (Nat × Fin env.config.n)) : Prop where
  status : r.status = .recovering
  unmerged : r.merges = []
  running : r.panicked = false
  quorum : r.doViewChangeQuorum.numRequired = env.config.f
  stored : ∀ view i msg, r.doViewChangeQuorum.Stored view i msg → (view,i) ∈ heard

section
variable {env : Env σ} {me : Fin env.config.n} {r : Replica env.config.n σ} {heard : List (Nat × Fin env.config.n)}

theorem Waiting.begin (waiting : Waiting env r heard) (me : Fin env.config.n) (view : Nat) :
    Waiting env (beginViewChange env me r view).replica heard := by
  refine {waiting with status := ?_}
  change (if r.status = .normal then _ else r.status) = _
  rw [waiting.status]
  rfl

section
variable (waiting : Waiting env r heard) {msg : DoViewChangeMessage env.config.n}
include waiting

theorem Waiting.no_quorum (few : (insert msg.replicaIdx (heardFrom heard msg.newView)).card < env.config.f) :
    (r.doViewChangeQuorum.addAndCheckForQuorum msg.newView msg.replicaIdx msg).2 = none := by
  refine Option.eq_none_iff_forall_ne_some.mpr fun msgs reached => ?_
  obtain ⟨enough,listed⟩ := QuorumSet.checkForQuorum_some reached
  rw [QuorumSet.add_numRequired,waiting.quorum,← OrdMap.card_keys] at enough
  have known : msgs.keys ⊆ insert msg.replicaIdx (heardFrom heard msg.newView) := by
    intro i mem
    obtain ⟨m,got⟩ := OrdMap.mem_keys.mp mem
    rcases QuorumSet.stored_add ((listed i m).mp got) with ⟨_,rfl,_⟩ | old
    · exact Finset.mem_insert_self _ _
    · exact Finset.mem_insert_of_mem (mem_heardFrom.mpr (waiting.stored _ _ _ old))
  have bound := Finset.card_le_card known
  omega

theorem Waiting.collect (here : msg.newView = r.view)
    (few : me = env.config.getLeaderIndex msg.newView → (insert msg.replicaIdx (heardFrom heard msg.newView)).card < env.config.f) :
    Waiting env (collectDoViewChange env me r msg).replica ((msg.newView,msg.replicaIdx) :: heard) ∧
      (collectDoViewChange env me r msg).sent = [] := by
  unfold collectDoViewChange
  split
  · exact ⟨{waiting with stored := fun view i m stored => .tail _ (waiting.stored view i m stored)},rfl⟩
  rename_i leads
  have none := waiting.no_quorum (few (by rw [here]; exact not_not.mp leads))
  dsimp only
  rw [none]
  refine ⟨{waiting with stored := ?_},rfl⟩
  intro view i m stored
  rcases QuorumSet.stored_add stored with ⟨rfl,rfl,_⟩ | old
  · exact List.mem_cons_self
  · exact .tail _ (waiting.stored view i m old)

end

end

def Recovering (env : Env σ) (s : Recovery env) : Prop :=
  s.returned = false → Waiting env s.replica s.heard ∧ ∀ p ∈ s.sent, ∀ msg, p.msg ≠ .startView msg

section
variable {env : Env σ} {me : Fin env.config.n} {s : Recovery env}

theorem broadcast_no_startView {r : Replica env.config.n σ} : ∀ p ∈ broadcastDoViewChangeMessages env me r, ∀ msg, p.msg ≠ .startView msg := by
  intro p mem msg same
  rcases mem_broadcastDoViewChange env me mem with ⟨_,_,_,rfl⟩ | ⟨_,rfl⟩ <;> cases same

theorem Recovering.quiet (sofar : ∀ p ∈ s.sent, ∀ msg, p.msg ≠ .startView msg) {sent : List (Packet env.config.n (Message env.config.n))}
    (new : ∀ p ∈ sent, ∀ msg, p.msg ≠ .startView msg) : ∀ p ∈ s.sent ++ sent, ∀ msg, p.msg ≠ .startView msg := by
  exact List.forall_mem_append.mpr ⟨sofar,new⟩

theorem Recovering.doViewChange (recovering : Recovering env s) {msg : DoViewChangeMessage env.config.n}
    (few : FewCallers me s (.doViewChange msg)) :
    Recovering env {s.also (handleDoViewChange env me s.replica msg) with
      heard := if s.replica.view ≤ msg.newView then (msg.newView,msg.replicaIdx) :: s.heard else s.heard} := by
  intro waits
  obtain ⟨waiting,sofar⟩ := recovering waits
  unfold handleDoViewChange Recovery.also
  dsimp only
  by_cases late : msg.newView < s.replica.view
  · rw [if_pos late,if_neg (Nat.not_le.mpr late)]
    exact ⟨waiting,quiet sofar (by simp)⟩
  have ahead := Nat.not_lt.mp late
  rw [if_neg late,if_pos ahead]
  have callers := few waiting.status ahead
  by_cases here : msg.newView = s.replica.view
  · rw [if_pos here,if_neg (by rw [waiting.status]; decide)]
    obtain ⟨kept,silent⟩ := waiting.collect here callers
    refine ⟨kept,quiet sofar ?_⟩
    rw [silent]
    simp
  rw [if_neg here]
  obtain ⟨kept,silent⟩ := (waiting.begin me msg.newView).collect rfl callers
  refine ⟨kept,quiet sofar ?_⟩
  rw [silent,List.append_nil]
  exact broadcast_no_startView

theorem Recovering.startView (recovering : Recovering env s) (msg : StartViewMessage) :
    Recovering env {s.also (handleStartView env s.replica msg) with
      returned := s.returned || decide (s.replica.status = .recovering ∧ (handleStartView env s.replica msg).replica.status = .normal)} := by
  intro waits
  obtain ⟨before,stays⟩ := Bool.or_eq_false_iff.mp waits
  obtain ⟨waiting,sofar⟩ := recovering before
  have ignored : handleStartView env s.replica msg = ⟨s.replica,[]⟩ := by
    unfold handleStartView at stays ⊢
    split
    · rfl
    split
    · rfl
    next fresh apart =>
      rw [if_neg fresh,if_neg apart] at stays
      simp [waiting.status] at stays
  unfold Recovery.also
  rw [ignored,List.append_nil]
  exact ⟨waiting,sofar⟩

theorem step_recovering {event : RecoveryEvent env.config.n} {t : Recovery env} (recovering : Recovering env s)
    (few : FewCallers me s event) (taken : s.step me event = some t) : Recovering env t := by
  unfold Recovery.step at taken
  split at taken
  · cases taken
  cases event with
  | doViewChange msg =>
    cases taken
    exact recovering.doViewChange few
  | startView msg =>
    cases taken
    exact recovering.startView msg
  | viewChangeTimeout =>
    cases taken
    intro waits
    obtain ⟨waiting,sofar⟩ := recovering waits
    exact ⟨waiting.begin me _,Recovering.quiet sofar broadcast_no_startView⟩

end

-- A recovering replica that fewer than f others ask to lead does not lead.
theorem recovering_never_leads_of_few_callers (env : Env σ) (me : Fin env.config.n) (view latestNormalView : Nat) (app : σ)
    (s : Recovery env) (reached : (recoveryRun env me view latestNormalView app).Reached (FewCallers me) s) :
    LeadsOnlyAfterReturn s := by
  have recovering : Recovering env s := by
    refine reached.invariant (Recovering env) ?_ fun s event t _ recovering few taken => step_recovering recovering few taken
    refine fun _ => ⟨⟨rfl,rfl,rfl,rfl,?_⟩,broadcast_no_startView⟩
    intro view i msg stored
    exact (QuorumSet.not_stored_new _ stored).elim
  intro waits
  obtain ⟨waiting,silent⟩ := recovering waits
  exact ⟨waiting.unmerged,waiting.running,silent⟩

def comingBack : Env Unit := ⟨⟨3,1,three_replicas⟩,mergesTo Unit ""⟩

def back : Fin comingBack.config.n := (0 : Fin 3)

def backFrom : Machine (Recovery comingBack) (RecoveryEvent comingBack.config.n) := recoveryRun comingBack back 0 0 ()

-- A StartView of view 1 returns it to NORMAL; then it may lead view 3.
theorem recovered_leads_after_start_view : ∃ s : Recovery comingBack, LeadsOnlyAfterReturn s ∧
    s.returned = true ∧ s.replica.merges = [(3,.empty)] := by
  have ran : (backFrom.run (FewCallers back) backFrom.initial
      [.startView ⟨.empty,1⟩,.doViewChange ⟨(1 : Fin 3),some .empty,3,1⟩]).map
      (fun s => decide (s.returned = true ∧ s.replica.merges = [(3,.empty)])) = some true := by
    decide +kernel
  obtain ⟨s,reached,seen⟩ := Machine.reached_of_run _ _ _ _ ran
  exact ⟨s,recovering_never_leads_of_few_callers comingBack back 0 0 () s reached,seen⟩

-- Without it, one DoViewChange for view 3 makes it merge its empty record and lead.
theorem recovering_replica_leads : ¬ ∀ (σ : Type) (env : Env σ) (me : Fin env.config.n) (view latestNormalView : Nat) (app : σ)
    (s : Recovery env), (recoveryRun env me view latestNormalView app).Reached Machine.anyStep s → LeadsOnlyAfterReturn s := by
  intro claimed
  have ran : (backFrom.run Machine.anyStep backFrom.initial [.doViewChange ⟨(1 : Fin 3),some .empty,3,0⟩]).map
      (fun s => decide (s.returned = false ∧ s.replica.merges = [(3,.empty)])) = some true := by
    decide +kernel
  obtain ⟨s,reached,waits,merged⟩ := Machine.reached_of_run _ _ _ _ ran
  have unmerged := (claimed Unit comingBack back 0 0 () s reached waits).1
  rw [merged] at unmerged
  cases unmerged

end DbExp.Tapir.Ir
