import DbExp.Foundation.ViewSet
import DbExp.Tapir.IrIssued

namespace DbExp.Tapir.Ir
open Function List
open ViewLog (Majority)
open ViewLog (hold_other hold_same)
open ViewSet (step_grows initial)

def Record.inconsistent (r : Record) : Set Opid := {op | ∃ e, r.find op = some e ∧ e.type = .inconsistent}

theorem Record.inconsistent_congr {r new : Record} (same : new.asked = r.asked) : new.inconsistent = r.inconsistent := by
  have typed (r : Record) (op : Opid) : op ∈ r.inconsistent ↔ (r.asked op).map Prod.fst = some .inconsistent := by
    simp [Record.inconsistent,Record.asked]
  ext op
  rw [typed,typed,same]

theorem Record.inconsistent_add {r : Record} {e : RecordEntry} (type : e.type = .inconsistent) :
    (r.add e).inconsistent = insert e.opid r.inconsistent := by
  ext op
  simp only [Record.inconsistent,Set.mem_ofPred_eq,Set.mem_insert_iff,Record.find_add]
  by_cases same : e.opid = op
  · simp [same,type]
  · simp [same,Ne.symm same]

theorem Record.inconsistent_add_consensus {r : Record} {e : RecordEntry} (new : r.find e.opid = none) (type : e.type = .consensus) :
    (r.add e).inconsistent = r.inconsistent := by
  ext op
  simp only [Record.inconsistent,Set.mem_ofPred_eq,Record.find_add]
  by_cases same : e.opid = op
  · subst same; simp [type,new]
  · simp [same]

section
variable {env : Env σ}

abbrev Views (env : Env σ) := ViewSet.State (Fin env.config.n) Opid

section
variable (a : Views env)

-- What is behind a DoViewChange message: its sender has left the views below the new
-- one and held the record it sends in the last of them it took part in.
structure Changing (m : DoViewChangeMessage env.config.n) : Prop where
  left : m.newView ≤ a.view m.replicaIdx
  earlier : m.latestNormalView < m.newView
  between : ∀ w, m.latestNormalView < w → w < m.newView → a.held m.replicaIdx w = none
  held : ∀ rec, m.record = some rec → a.held m.replicaIdx m.latestNormalView = some rec.inconsistent

def Reports (i : Fin env.config.n) (m : DoViewChangeMessage env.config.n) : Prop :=
  Changing a m ∧ m.replicaIdx ≠ i ∧ (env.config.getLeaderIndex m.newView = i → m.record.isSome)

def Acknowledged (i : Fin env.config.n) (view : Nat) (op : Opid) : Prop :=
  ∃ old, a.held i view = some old ∧ op ∈ old

def PacketStands (p : Packet env.config.n (Message env.config.n)) : Prop :=
  match p.msg with
  | .doViewChange m => ∀ i, p.dst = .replica i → Reports a i m
  | .startView m => a.start m.newView = some m.record.inconsistent
  | .replyInconsistent m => Acknowledged a m.replicaIdx m.view m.opid
  | _ => True

section
variable (i : Fin env.config.n) (r : Replica env.config.n σ)

structure Stands : Prop where
  view : a.view i = r.view
  held : a.held i r.latestNormalView = some r.record.inconsistent
  above : ∀ w, r.latestNormalView < w → a.held i w = none
  normal : r.status = .normal → r.latestNormalView = r.view
  changing : r.status ≠ .normal → r.latestNormalView < r.view

structure ReplicaStands : Prop extends Stands a i r where
  numRequired : r.doViewChangeQuorum.numRequired = env.config.f
  stored : ∀ view j m, r.doViewChangeQuorum.Stored view j m → j = m.replicaIdx ∧ view = m.newView ∧ Reports a i m
  merges : ∀ w rec, (w,rec) ∈ r.merges → a.start w = some rec.inconsistent

end

structure ClientStands (id : Nat) (c : Client env.config.n) : Prop where
  pending : ∀ k req quorum, c.pendingReqs k = some req → req.kind = .inconsistent quorum →
    quorum.numRequired = env.config.quorumSize ∧
    ∀ stamp j m, quorum.Stored stamp j m → Acknowledged a j stamp.view ⟨id,k⟩
  completed : ∀ done ∈ c.completed, ∀ request, c.issued done.reqId = some (.logged .inconsistent,request) →
    ViewSet.Stored a done.view ⟨id,done.reqId⟩

def Leads : Prop :=
  ∀ v first, a.start v = some first → ∃ old, a.held (env.config.getLeaderIndex v) v = some old

structure Related (s : System env) : Prop where
  valid : ViewSet.Valid a
  leads : Leads a
  replicas : ∀ i, ReplicaStands a i (s.replicas i)
  clients : ∀ id, ClientStands a id (s.clients id)
  packets : ∀ p ∈ s.network, PacketStands a p

end

section
variable {a b : Views env} (grows : ViewSet.Grows a b)
include grows

theorem Changing.stays (holds : Changing a m) : Changing b m where
  left := holds.left.trans (grows.view _)
  earlier := holds.earlier
  between := by
    intro w above below
    rw [grows.frozen _ _ (below.trans_le holds.left)]
    exact holds.between w above below
  held := by
    intro rec record
    rw [grows.frozen _ _ (holds.earlier.trans_le holds.left)]
    exact holds.held rec record

theorem Reports.stays (holds : Reports a i m) : Reports b i m := ⟨Changing.stays grows holds.1,holds.2⟩

theorem Acknowledged.stays (holds : Acknowledged a i view op) : Acknowledged b i view op := by
  obtain ⟨old,here,inside⟩ := holds
  obtain ⟨more,there,larger⟩ := grows.kept i view old here
  exact ⟨more,there,larger inside⟩

theorem PacketStands.stays {p : Packet env.config.n (Message env.config.n)} (holds : PacketStands a p) : PacketStands b p := by
  obtain ⟨_,_,msg⟩ := p
  cases msg with
  | doViewChange m => exact fun i target => Reports.stays grows (holds i target)
  | startView m => exact grows.started _ _ holds
  | replyInconsistent m => exact Acknowledged.stays grows holds
  | _ => trivial

theorem ClientStands.stays {id : Nat} {c : Client env.config.n} (holds : ClientStands a id c) : ClientStands b id c where
  pending := by
    intro k req quorum got kind
    obtain ⟨size,stored⟩ := holds.pending k req quorum got kind
    exact ⟨size,fun stamp j m there => Acknowledged.stays grows (stored stamp j m there)⟩
  completed := fun done mem request listed => (holds.completed done mem request listed).grows grows

theorem ReplicaStands.moved {new : Replica env.config.n σ} (holds : ReplicaStands a i r) (stands : Stands b i new)
    (quorum : new.doViewChangeQuorum = r.doViewChangeQuorum)
    (merges : ∀ w rec, (w,rec) ∈ new.merges → (w,rec) ∈ r.merges ∨ b.start w = some rec.inconsistent) : ReplicaStands b i new where
  toStands := stands
  numRequired := by rw [quorum]; exact holds.numRequired
  stored := by
    intro v j m there
    obtain ⟨sender,level,reports⟩ := holds.stored v j m (quorum ▸ there)
    exact ⟨sender,level,Reports.stays grows reports⟩
  merges := fun w rec mem => (merges w rec mem).elim (fun old => grows.started _ _ (holds.merges w rec old)) id

theorem ReplicaStands.stays (holds : ReplicaStands a i r) (view : b.view i = a.view i) (held : ∀ w, b.held i w = a.held i w) :
    ReplicaStands b i r :=
  .moved grows holds ⟨view.trans holds.view,(held _).trans holds.held,fun w later => (held w).trans (holds.above w later),
    holds.normal,holds.changing⟩ rfl (fun _ _ => .inl)

end
structure Follows (a b : Views env) (i : Fin env.config.n) (e : Effect env.config.n σ) : Prop where
  valid : ViewSet.Valid b
  grows : ViewSet.Grows a b
  leads : Leads b
  others : ∀ j, j ≠ i → b.view j = a.view j ∧ ∀ w, b.held j w = a.held j w
  replica : ReplicaStands b i e.replica
  sent : ∀ p ∈ e.sent, PacketStands b p

variable {a : Views env} {i : Fin env.config.n} {r : Replica env.config.n σ}

theorem ReplicaStands.modify (holds : ReplicaStands a i r) (app : σ) (same : record.inconsistent = r.record.inconsistent) :
    ReplicaStands a i {r with
      record := record
      app := app} :=
  {holds with held := by rw [holds.held]; exact congrArg some same.symm}

theorem Follows.still (valid : ViewSet.Valid a) (leads : Leads a) (holds : ReplicaStands a i r) (sent : ∀ p ∈ packets, PacketStands a p) :
    Follows a a i ⟨r,packets⟩ :=
  ⟨valid,.refl,leads,fun _ _ => ⟨rfl,fun _ => rfl⟩,holds,sent⟩

theorem Follows.step {b : Views env} {e : Effect env.config.n σ} (valid : ViewSet.Valid a) (step : ViewSet.Step a b)
    (others : ∀ j, j ≠ i → b.view j = a.view j ∧ ∀ w, b.held j w = a.held j w) (leads : Leads b)
    (replica : ReplicaStands b i e.replica) (sent : ∀ p ∈ e.sent, PacketStands b p) : Follows a b i e :=
  ⟨ViewSet.step_valid valid step,step_grows step,leads,others,replica,sent⟩

theorem leads_grows {b : Views env} (leads : Leads a) (grows : ViewSet.Grows a b) (same : b.start = a.start) : Leads b := by
  intro v first started
  rw [same] at started
  obtain ⟨old,here⟩ := leads v first started
  obtain ⟨more,there,_⟩ := grows.kept _ v old here
  exact ⟨more,there⟩

-- A proposal is acknowledged for the view a replica last took part in: either it is
-- recorded while that view is current, or its entry was made there.
def FreshAcknowledgement (r : Replica n σ) (req : Request) : Prop :=
  match r.record.find ⟨req.clientid,req.clientreqid⟩ with
  | none => r.status = .normal
  | some entry => entry.view = r.latestNormalView

instance (r : Replica n σ) (req : Request) : Decidable (FreshAcknowledgement r req) := by
  unfold FreshAcknowledgement; split <;> infer_instance

theorem Stands.advance (holds : ReplicaStands a i r) (later : r.view < v) (status : ReplicaStatus) (changing : status ≠ .normal) :
    ReplicaStands {a with view := update a.view i v} i {r with
      view := v
      status := status} := by
  have grows := step_grows (ViewSet.Step.advance (holds.view.le.trans later.le) : ViewSet.Step a _)
  have below : r.latestNormalView < v := by
    by_cases normal : r.status = .normal
    · rw [holds.normal normal]; exact later
    · exact (holds.changing normal).trans later
  exact .moved grows holds ⟨update_self ..,holds.held,holds.above,fun normal => absurd normal changing,fun _ => below⟩ rfl (fun _ _ => .inl)

theorem Follows.andThen {b c : Views env} {one two : Effect env.config.n σ} (first : Follows a b i one)
    (second : Follows b c i two) : Follows a c i ⟨two.replica,one.sent ++ two.sent⟩ where
  valid := second.valid
  grows := first.grows.trans second.grows
  leads := second.leads
  others := fun j other =>
    ⟨(second.others j other).1.trans (first.others j other).1,fun w => ((second.others j other).2 w).trans ((first.others j other).2 w)⟩
  replica := second.replica
  sent := by
    exact forall_mem_append.mpr ⟨fun p early => PacketStands.stays second.grows (first.sent p early),second.sent⟩

theorem le_maxLatestNormalView (r : Replica n σ) (msgs : OrdMap (Fin n) (DoViewChangeMessage n)) :
    r.latestNormalView ≤ maxLatestNormalView r msgs ∧
    (∀ j m, msgs.find j = some m → m.latestNormalView ≤ maxLatestNormalView r msgs) ∧
    (maxLatestNormalView r msgs = r.latestNormalView ∨
      ∃ j m, msgs.find j = some m ∧ m.latestNormalView = maxLatestNormalView r msgs) := by
  have general (entries : List (Fin n × DoViewChangeMessage n)) (best : Nat) :
      best ≤ entries.foldl (fun best p => max best p.2.latestNormalView) best ∧
      (∀ p ∈ entries, p.2.latestNormalView ≤ entries.foldl (fun best p => max best p.2.latestNormalView) best) ∧
      (entries.foldl (fun best p => max best p.2.latestNormalView) best = best ∨
        ∃ p ∈ entries, p.2.latestNormalView = entries.foldl (fun best p => max best p.2.latestNormalView) best) := by
    induction entries generalizing best with
    | nil => simp
    | cons head rest ih =>
      obtain ⟨above,all,attained⟩ := ih (max best head.2.latestNormalView)
      rw [foldl_cons]
      refine ⟨(le_max_left _ _).trans above,?_,?_⟩
      · intro p mem
        rcases mem_cons.mp mem with rfl | later
        · exact (le_max_right _ _).trans above
        · exact all p later
      rcases attained with same | ⟨p,mem,same⟩
      · rcases max_choice best head.2.latestNormalView with left | right
        · exact .inl (same.trans left)
        · exact .inr ⟨head,mem_cons_self,(same.trans right).symm⟩
      · exact .inr ⟨p,.tail _ mem,same⟩
  obtain ⟨own,all,attained⟩ := general msgs.entries r.latestNormalView
  refine ⟨own,fun j m got => all (j,m) (OrdMap.mem_entries.mpr got),attained.imp_right ?_⟩
  rintro ⟨p,mem,same⟩
  exact ⟨p.1,p.2,OrdMap.mem_entries.mp mem,same⟩

theorem irMergeRecords_covers (holds : ReplicaIssued ledger r) {msgs : OrdMap (Fin env.config.n) (DoViewChangeMessage env.config.n)}
    (stored : ∀ j m, msgs.find j = some m → ∀ rec, m.record = some rec → RecordIssued ledger rec)
    (merged : irMergeRecords env r msgs = some (app,record)) (listed : source ∈ latestRecords r msgs) :
    source.inconsistent ⊆ record.inconsistent := by
  have sources := latestRecords_issued holds stored
  rintro op ⟨e,got,type⟩
  obtain ⟨x,present⟩ := Option.isSome_iff_exists.mp (irMergeRecords_inconsistent merged listed got type)
  obtain ⟨other,mem,y,there,same,_⟩ := irMergeRecords_entry merged present
  have one := (sources source listed op e got).symm.trans (sources other mem op y there)
  simp only [Option.some.injEq,Prod.mk.injEq,RequestType.logged.injEq] at one
  exact ⟨x,present,by rw [same,← one.1,type]⟩

section
variable {msgs : OrdMap (Fin env.config.n) (DoViewChangeMessage env.config.n)}

theorem gathered_of_quorum (replicas : env.config.n = 2 * env.config.f + 1) (holds : ReplicaStands a i r)
    (changing : r.status ≠ .normal) (leader : env.config.getLeaderIndex r.view = i) (enough : env.config.f ≤ msgs.size)
    (reports : ∀ j m, msgs.find j = some m → j = m.replicaIdx ∧ r.view = m.newView ∧ Reports a i m)
    (covers : ∀ source ∈ latestRecords r msgs, source.inconsistent ⊆ items) :
    ViewSet.Gathered a r.view (mergedReplicas i msgs) (maxLatestNormalView r msgs) items := by
  obtain ⟨own,all,attained⟩ := le_maxLatestNormalView r msgs
  -- what a member of the quorum is: the leader itself, or the sender of a report
  have mem (j : Fin env.config.n) (inQuorum : j ∈ mergedReplicas i msgs) :
      j = i ∨ ∃ m, msgs.find j = some m ∧ j = m.replicaIdx ∧ r.view = m.newView ∧ Reports a i m := by
    rcases Finset.mem_insert.mp inQuorum with self | sender
    · exact .inl self
    · obtain ⟨m,got⟩ := OrdMap.mem_keys.mp sender
      exact .inr ⟨m,got,reports j m got⟩
  refine ⟨?_,?_,?_,?_,?_,?_⟩
  · have apart : i ∉ msgs.keys := by
      intro self
      obtain ⟨m,got⟩ := OrdMap.mem_keys.mp self
      obtain ⟨same,_,report⟩ := reports i m got
      exact report.2.1 same.symm
    unfold Majority mergedReplicas
    rw [Finset.card_insert_of_notMem apart,OrdMap.card_keys,Fintype.card_fin]
    omega
  · intro j inQuorum
    rcases mem j inQuorum with rfl | ⟨m,_,rfl,level,report⟩
    · exact holds.view.ge
    · exact level ▸ report.1.left
  · rcases attained with same | ⟨j,m,got,same⟩
    · rw [same]; exact holds.changing changing
    · obtain ⟨_,level,report⟩ := reports j m got
      rw [← same,level]
      exact report.1.earlier
  · rcases attained with same | ⟨j,m,got,same⟩
    · exact ⟨i,Finset.mem_insert_self _ _,_,same ▸ holds.held⟩
    · obtain ⟨rfl,level,report⟩ := reports j m got
      obtain ⟨rec,record⟩ := Option.isSome_iff_exists.mp (report.2.2 (level ▸ leader))
      exact ⟨_,Finset.mem_insert_of_mem (OrdMap.mem_keys.mpr ⟨m,got⟩),_,same ▸ report.1.held rec record⟩
  · intro j inQuorum x below old here
    by_contra above
    rcases mem j inQuorum with rfl | ⟨m,got,rfl,level,report⟩
    · rw [holds.above x (by omega)] at here
      cases here
    · have := all _ m got
      rw [report.1.between x (by omega) (by omega)] at here
      cases here
  intro j inQuorum old here
  rcases mem j inQuorum with rfl | ⟨m,got,rfl,level,report⟩
  · rcases own.lt_or_eq with below | same
    · rw [holds.above _ below] at here
      cases here
    · rw [← same,holds.held] at here
      cases here
      exact covers _ (mem_append_right _ (by rw [if_pos same]; exact mem_singleton_self _))
  rcases (all _ m got).lt_or_eq with below | same
  · have past : maxLatestNormalView r msgs < m.newView := by
      rcases attained with tops | ⟨k,top,listed,tops⟩
      · rw [tops,← level]; exact holds.changing changing
      · obtain ⟨_,height,reported⟩ := reports k top listed
        rw [← tops,← level,height]
        exact reported.1.earlier
    rw [report.1.between _ below past] at here
    cases here
  obtain ⟨rec,record⟩ := Option.isSome_iff_exists.mp (report.2.2 (level ▸ leader))
  rw [← same,report.1.held rec record] at here
  cases here
  refine covers rec (mem_append_left _ (mem_map.mpr ⟨(m.replicaIdx,m),?_,by simp [record]⟩))
  exact mem_filter.mpr ⟨OrdMap.mem_entries.mpr got,by simpa using same⟩

end

section
variable (valid : ViewSet.Valid a) (leads : Leads a) (holds : ReplicaStands a i r)
include valid leads holds

theorem handleProposeInconsistent_follows (issued : RecordIssued ledger r.record) (req : Request)
    (listed : ledger req.clientid req.clientreqid = some (.logged .inconsistent,req.op))
    (fresh : FreshAcknowledgement r req) : ∃ b, Follows a b i (handleProposeInconsistent env i r remote req) := by
  unfold FreshAcknowledgement at fresh
  unfold handleProposeInconsistent
  dsimp only
  split
  next entry got =>
    rw [got] at fresh
    refine ⟨a,.still valid leads holds fun p mem => ?_⟩
    cases mem_singleton.mp mem
    have type : entry.type = .inconsistent := by
      have both := (issued _ _ got).symm.trans listed
      simp only [Option.some.injEq,Prod.mk.injEq,RequestType.logged.injEq] at both
      exact both.1
    exact ⟨r.record.inconsistent,fresh ▸ holds.held,entry,got,type⟩
  next absent =>
    rw [absent] at fresh
    have level : r.latestNormalView = a.view i := (holds.normal fresh).trans holds.view.symm
    have current : a.held i (a.view i) = some r.record.inconsistent := level ▸ holds.held
    let op : Opid := ⟨req.clientid,req.clientreqid⟩
    have step := ViewSet.Step.add op current
    have grows := step_grows step
    refine ⟨_,.step valid step ?_ (leads_grows leads grows rfl) ?_ ?_⟩
    · exact fun j other => ⟨rfl,fun w => hold_other _ _ fun both => other both.1⟩
    · refine .moved grows holds ⟨holds.view,?_,?_,holds.normal,holds.changing⟩ rfl (fun _ _ => .inl)
      · rw [Record.inconsistent_add rfl,← level]
        exact hold_same _ _ _ _
      · intro w later
        have past : a.view i < w := level ▸ later
        exact (hold_other _ _ fun both => by omega).trans (holds.above w later)
    intro p mem
    cases mem_singleton.mp mem
    refine ⟨insert op r.record.inconsistent,?_,Set.mem_insert _ _⟩
    rw [← holds.view]
    exact hold_same _ _ _ _

theorem handleFinalizeInconsistent_follows (opid : Opid) : Follows a a i (handleFinalizeInconsistent env i r remote opid) := by
  unfold handleFinalizeInconsistent
  split
  · exact .still valid leads holds (by simp)
  split
  · exact .still valid leads (holds.modify _ (Record.inconsistent_congr (Record.asked_setStatus ..))) (forall_mem_singleton.mpr trivial)
  · exact .still valid leads holds (by simp)

theorem handleProposeConsensus_follows (req : Request) : Follows a a i (handleProposeConsensus env i r remote req) := by
  unfold handleProposeConsensus
  dsimp only
  split
  · exact .still valid leads holds (forall_mem_singleton.mpr trivial)
  next absent =>
    exact .still valid leads (holds.modify _ (Record.inconsistent_add_consensus absent rfl)) (forall_mem_singleton.mpr trivial)

theorem handleFinalizeConsensus_follows (opid : Opid) (result : String) : Follows a a i (handleFinalizeConsensus env i r remote opid result) := by
  unfold handleFinalizeConsensus
  split
  · exact .still valid leads holds (by simp)
  refine .still valid leads (holds.modify r.app ?_) (forall_mem_singleton.mpr trivial)
  exact Record.inconsistent_congr ((Record.asked_setResult ..).trans (Record.asked_setStatus ..))

theorem beginViewChange_follows (later : r.view < v) :
    Follows a {a with view := update a.view i v} i (beginViewChange env i r v) := by
  have step : ViewSet.Step a {a with view := update a.view i v} := .advance (holds.view.le.trans later.le)
  have changed : (if r.status = .normal then .viewChange else r.status) ≠ ReplicaStatus.normal := by
    split
    · simp
    · assumption
  have replica := Stands.advance holds later _ changed
  have report (rec : Option Record) (sends : ∀ x, rec = some x → x = r.record) :
      Changing {a with view := update a.view i v} ⟨i,rec,v,r.latestNormalView⟩ :=
    ⟨by simp,replica.changing changed,fun w above _ => holds.above w above,fun x record => sends x record ▸ holds.held⟩
  refine .step valid step (fun j other => ⟨update_of_ne other ..,fun _ => rfl⟩)
    (leads_grows leads (step_grows step) rfl) replica fun p mem => ?_
  rcases mem_broadcastDoViewChange env i mem with ⟨_,other,follower,rfl⟩ | ⟨other,rfl⟩
  · intro j target
    cases target
    exact ⟨report none (by simp),other.symm,fun leads => absurd leads.symm follower⟩
  · intro j target
    cases target
    exact ⟨report (some r.record) (by simp),other.symm,fun _ => rfl⟩

section
variable (replicas : env.config.n = 2 * env.config.f + 1) (issued : ReplicaIssued ledger r) (msg : DoViewChangeMessage env.config.n)
  (sound : ∀ rec, msg.record = some rec → RecordIssued ledger rec) (report : Reports a i msg)
include replicas issued msg sound report

theorem collectDoViewChange_follows
    (level : msg.newView = r.view) (changing : r.status ≠ .normal) : ∃ b, Follows a b i (collectDoViewChange env i r msg) := by
  obtain ⟨sender,rec,newView,latest⟩ := msg
  subst level
  let msg : DoViewChangeMessage env.config.n := ⟨sender,rec,r.view,latest⟩
  let collected := {r with doViewChangeQuorum := r.doViewChangeQuorum.add r.view sender msg}
  have stored : ReplicaStands a i collected := by
    refine {holds with stored := ?_}
    intro view j m there
    rcases QuorumSet.stored_add there with ⟨rfl,rfl,rfl⟩ | old
    · exact ⟨rfl,rfl,report⟩
    · exact holds.stored view j m old
  have listed : ReplicaIssued ledger collected := by
    refine ⟨issued.1,fun view j m rec there record => ?_⟩
    rcases QuorumSet.stored_add there with ⟨_,_,rfl⟩ | old
    · exact sound rec record
    · exact issued.2 view j m rec old record
  unfold collectDoViewChange
  split
  · exact ⟨a,.still valid leads holds (by simp)⟩
  rename_i leading
  have leader : env.config.getLeaderIndex r.view = i := (not_not.mp leading).symm
  dsimp only
  split
  · exact ⟨a,.still valid leads stored (by simp)⟩
  rename_i msgs quorum
  obtain ⟨enough,got⟩ := QuorumSet.checkForQuorum_some quorum
  split
  · exact ⟨a,.still valid leads {stored with} (by simp)⟩
  rename_i app record merged
  have gathered : ViewSet.Gathered a collected.view (mergedReplicas i msgs) (maxLatestNormalView collected msgs) record.inconsistent :=
    gathered_of_quorum replicas stored changing leader (holds.numRequired ▸ enough)
      (fun j m there => stored.stored _ j m ((got j m).mp there))
      (fun source mem => irMergeRecords_covers listed
        (fun j m there rec => listed.2 _ j m rec ((got j m).mp there)) merged mem)
  have idle : a.held i r.view = none := holds.above _ (holds.changing changing)
  have first : a.start r.view = none := by
    by_contra started
    obtain ⟨set,here⟩ := Option.ne_none_iff_exists'.mp started
    obtain ⟨old,held⟩ := leads _ set here
    rw [leader,idle] at held
    cases held
  have step := ViewSet.Step.begin holds.view idle first gathered
  have grows := step_grows step
  refine ⟨_,.step valid step ?_ ?_ ?_ ?_⟩
  · exact fun j other => ⟨rfl,fun w => hold_other _ _ fun both => other both.1⟩
  · intro v set started
    by_cases same : v = r.view
    · subst same; rw [leader]; exact ⟨_,hold_same _ _ _ _⟩
    · obtain ⟨old,here⟩ := leads v set ((update_of_ne same ..).symm.trans started)
      obtain ⟨more,there,_⟩ := grows.kept _ _ _ here
      exact ⟨more,there⟩
  · refine .moved grows stored ⟨holds.view,hold_same _ _ _ _,?_,fun _ => rfl,fun odd => absurd rfl odd⟩ rfl ?_
    · intro w later
      have past : r.view < w := later
      exact (hold_other _ _ fun both => by omega).trans (holds.above w ((holds.changing changing).trans past))
    intro w rec mem
    rcases mem_append.mp mem with old | new
    · exact .inl old
    · cases mem_singleton.mp new
      exact .inr (update_self ..)
  exact forall_toAll fun _ => update_self ..

theorem handleDoViewChange_follows :
    ∃ b, Follows a b i (handleDoViewChange env i r msg) := by
  unfold handleDoViewChange
  split
  · exact ⟨a,.still valid leads holds (by simp)⟩
  split
  next level =>
    split
    · exact ⟨a,.still valid leads holds (by simp)⟩
    next changing =>
      exact collectDoViewChange_follows valid leads holds replicas issued msg sound report level changing
  next apart =>
    have begun := beginViewChange_follows valid leads holds (show r.view < msg.newView by omega)
    have changed : (beginViewChange env i r msg.newView).replica.status ≠ .normal := by
      unfold beginViewChange
      split
      · simp
      · assumption
    obtain ⟨b,collected⟩ := collectDoViewChange_follows begun.valid begun.leads begun.replica replicas
      (beginViewChange_issued issued _).1 msg sound (Reports.stays begun.grows report) rfl changed
    exact ⟨b,begun.andThen collected⟩

end

theorem handleStartView_follows (msg : StartViewMessage)
    (started : a.start msg.newView = some msg.record.inconsistent) : ∃ b, Follows a b i (handleStartView env r msg) := by
  unfold handleStartView
  split
  · exact ⟨a,.still valid leads holds (by simp)⟩
  split
  · exact ⟨a,.still valid leads holds (by simp)⟩
  rename_i current joins
  have beyond : r.latestNormalView < msg.newView := by
    by_cases normal : r.status = .normal
    · have := holds.normal normal
      have : msg.newView ≠ r.view := fun same => joins ⟨same,normal⟩
      omega
    · have := holds.changing normal
      omega
  have advance : ViewSet.Step a {a with view := update a.view i msg.newView} :=
    .advance (holds.view.le.trans (not_lt.mp current))
  have inView : update a.view i msg.newView i = msg.newView := update_self ..
  have adopt := ViewSet.Step.adopt (s := {a with view := update a.view i msg.newView}) inView
    (holds.above _ beyond) started
  have moved := advance.moves.trans adopt.moves valid
  refine ⟨_,moved.1,moved.2,leads_grows leads moved.2 rfl,?_,?_,by simp⟩
  · exact fun j other => ⟨update_of_ne other ..,fun w => hold_other _ _ fun both => other both.1⟩
  refine .moved moved.2 holds ⟨inView,hold_same _ _ _ _,?_,fun _ => rfl,fun odd => absurd rfl odd⟩ rfl (fun _ _ => .inl)
  intro w later
  have past : msg.newView < w := later
  exact (hold_other _ _ fun both => by omega).trans (holds.above w (beyond.trans past))

end

def AcknowledgesFresh (s : System env) : Action env.config.n → Prop
  | .deliver ⟨_,.replica i,.proposeInconsistent req⟩ => FreshAcknowledgement (s.replicas i) req
  | _ => True

instance (s : System env) (act : Action env.config.n) : Decidable (AcknowledgesFresh s act) := by
  unfold AcknowledgesFresh; split <;> infer_instance

theorem receive_follows {s : System env} (replicas : env.config.n = 2 * env.config.f + 1) (holds : Related a s) (issued : s.Issued)
    (sent : p ∈ s.network) (target : p.dst = .replica i) (fresh : AcknowledgesFresh s (.deliver p)) :
    ∃ b, Follows a b i (receiveMessage env i (s.replicas i) p.src p.msg) := by
  have stands := holds.packets p sent
  have sound := issued.packets p sent
  have mine := holds.replicas i
  obtain ⟨src,dst,msg⟩ := p
  cases target
  cases msg with
  | proposeInconsistent req =>
    exact handleProposeInconsistent_follows holds.valid holds.leads mine (issued.replicas i).1 req sound.2 fresh
  | finalizeInconsistent opid => exact ⟨a,handleFinalizeInconsistent_follows holds.valid holds.leads mine opid⟩
  | proposeConsensus req => exact ⟨a,handleProposeConsensus_follows holds.valid holds.leads mine req⟩
  | finalizeConsensus opid result => exact ⟨a,handleFinalizeConsensus_follows holds.valid holds.leads mine opid result⟩
  | doViewChange msg =>
    exact handleDoViewChange_follows holds.valid holds.leads mine replicas (issued.replicas i) msg sound (stands i rfl)
  | startView msg => exact handleStartView_follows holds.valid holds.leads mine msg stands
  | unloggedRequest req =>
    exact ⟨a,.still holds.valid holds.leads (mine.modify _ rfl) (forall_mem_singleton.mpr trivial)⟩
  | _ => exact ⟨a,.still holds.valid holds.leads {mine with} (by simp)⟩

theorem Follows.related {s : System env} {b : Views env} {e : Effect env.config.n σ} (holds : Related a s) (follows : Follows a b i e) :
    Related b (s.perform i e) where
  valid := follows.valid
  leads := follows.leads
  replicas := by
    intro j
    rw [System.perform_replicas]
    split
    · rename_i same; rw [same]; exact follows.replica
    next other =>
      exact ReplicaStands.stays follows.grows (holds.replicas j) (follows.others j other).1 (follows.others j other).2
  clients := fun id => ClientStands.stays follows.grows (holds.clients id)
  packets := by
    exact forall_mem_append.mpr ⟨fun p old => PacketStands.stays follows.grows (holds.packets p old),follows.sent⟩

section
variable {id : Nat} {c : Client env.config.n}

def ClientFollows (a : Views env) (id : Nat) (e : ClientEffect env.config.n) : Prop :=
  ClientStands a id e.1 ∧ ∀ p ∈ e.2, PacketStands a p

theorem not_inconsistent (issued : ClientIssued ledger id c) (got : c.pendingReqs k = some req)
    (kind : req.type ≠ .logged .inconsistent) (listed : c.issued req.clientReqId = some (.logged .inconsistent,request)) :
    ViewSet.Stored a view op := by
  obtain ⟨key,type⟩ := issued.pending k req got
  rw [key,type,Option.some.injEq,Prod.mk.injEq] at listed
  exact absurd listed.1 kind

theorem stored_of_replies (replicas : env.config.n = 2 * env.config.f + 1)
    {quorum : QuorumSet Viewstamp env.config.n (ReplyInconsistentMessage env.config.n)}
    (size : quorum.numRequired = env.config.quorumSize)
    (replies : ∀ stamp j m, quorum.Stored stamp j m → Acknowledged a j stamp.view op)
    (reached : quorum.checkForQuorum stamp = some msgs) : ViewSet.Stored a stamp.view op := by
  obtain ⟨_,got⟩ := QuorumSet.checkForQuorum_some reached
  refine ⟨msgs.keys,?_,fun j mem => ?_⟩
  · unfold Majority
    rw [OrdMap.card_keys,Fintype.card_fin]
    unfold Configuration.quorumSize at size
    omega
  · obtain ⟨m,there⟩ := OrdMap.mem_keys.mp mem
    exact replies stamp j m ((got j m).mp there)

section
variable (holds : ClientStands a id c)
include holds

theorem ClientStands.put (facts : ∀ quorum, req.kind = .inconsistent quorum → quorum.numRequired = env.config.quorumSize ∧
      ∀ stamp j m, quorum.Stored stamp j m → Acknowledged a j stamp.view ⟨id,req.clientReqId⟩) :
    ClientStands a id (c.put req) where
  pending := by
    intro k new quorum got kind
    rw [Client.put_pendingReqs] at got
    split at got
    · rename_i same; cases got; rw [same]; exact facts quorum kind
    · exact holds.pending k new quorum got kind
  completed := holds.completed

theorem ClientStands.drop (k : Nat) : ClientStands a id (c.drop k) where
  pending := by
    intro l new quorum got kind
    rw [Client.drop_pendingReqs] at got
    split at got
    · cases got
    · exact holds.pending l new quorum got kind
  completed := holds.completed

theorem ClientStands.panic : ClientStands a id c.panic := ⟨holds.pending,holds.completed⟩

theorem ClientStands.complete (k view : Nat) (result : Except ErrorCode String)
    (stored : ∀ request, c.issued k = some (.logged .inconsistent,request) → ViewSet.Stored a view ⟨id,k⟩) :
    ClientStands a id (c.complete k view result) where
  pending := holds.pending
  completed := by
    intro done mem request listed
    rcases mem_append.mp mem with old | new
    · exact holds.completed done old request listed
    · cases mem_singleton.mp new
      exact stored request listed

theorem consensus_stands (issued : ClientIssued ledger id c) (got : c.pendingReqs k = some req)
    (kind : req.kind = .consensus was) : Client.Upholds (ClientStands a id) (PacketStands a) id c req where
  put := fun _ _ _ => holds.put (fun quorum kind => by cases kind)
  complete := by
    intro part view result
    refine ClientStands.complete (holds.put (fun quorum kind => by cases kind)) _ _ _ fun request listed => ?_
    exact not_inconsistent issued got (by simp [PendingRequest.type_consensus kind]) listed
  sends := fun _ => forall_toAll fun _ => trivial

theorem handleInconsistentReply_stands (replicas : env.config.n = 2 * env.config.f + 1)
    (issued : ClientIssued ledger id c) (msg : ReplyInconsistentMessage env.config.n) (mine : msg.opid.clientid = id)
    (acknowledged : Acknowledged a msg.replicaIdx msg.view msg.opid) :
    ClientFollows a id (Client.handleInconsistentReply id c msg) := by
  unfold Client.handleInconsistentReply
  dsimp only
  split
  · exact ⟨holds,by simp⟩
  rename_i req got
  split
  next quorum kind =>
    obtain ⟨size,replies⟩ := holds.pending _ req quorum got kind
    have key : req.clientReqId = msg.opid.clientreqid := (issued.pending _ req got).1
    have op : msg.opid = ⟨id,msg.opid.clientreqid⟩ := by rw [← mine]
    have added (stamp : Viewstamp) (j : Fin env.config.n) (m : ReplyInconsistentMessage env.config.n)
        (there : (quorum.add ⟨msg.view,msg.opid.clientreqid⟩ msg.replicaIdx msg).Stored stamp j m) :
        Acknowledged a j stamp.view ⟨id,msg.opid.clientreqid⟩ := by
      rcases QuorumSet.stored_add there with ⟨rfl,rfl,rfl⟩ | old
      · exact op ▸ acknowledged
      · exact replies stamp j m old
    have enough : (quorum.add ⟨msg.view,msg.opid.clientreqid⟩ msg.replicaIdx msg).numRequired = env.config.quorumSize := size
    split
    next reached =>
      obtain ⟨_,all⟩ := Option.isSome_iff_exists.mp reached.1
      refine ⟨ClientStands.complete (holds.put ?_) _ _ _ ?_,forall_toAll fun _ => trivial⟩
      · intro new same
        cases same
        exact ⟨size,key.symm ▸ added⟩
      · exact fun _ _ => stored_of_replies replicas enough added all
    · refine ⟨holds.put ?_,by simp⟩
      intro new same
      cases same
      exact ⟨size,key.symm ▸ added⟩
  · exact ⟨holds.panic,by simp⟩

theorem handleConfirm_stands (issued : ClientIssued ledger id c) (msg : ConfirmMessage env.config.n) :
    ClientStands a id (Client.handleConfirm c msg) := by
  unfold Client.handleConfirm
  dsimp only
  split
  · exact holds
  rename_i req got
  have key : req.clientReqId = msg.opid.clientreqid := (issued.pending _ req got).1
  split
  · exact holds.put fun quorum kind => key.symm ▸ holds.pending _ req quorum got kind
  split
  · exact holds.drop _
  split
  next part kind =>
    refine ClientStands.complete (holds.drop _) _ _ _ fun request listed => ?_
    exact not_inconsistent issued got (by simp [PendingRequest.type_consensus kind]) (key.symm ▸ listed)
  · exact holds.panic

theorem requestTimeout_stands (issued : ClientIssued ledger id c) (got : c.pendingReqs k = some req) :
    ClientFollows a id (Client.requestTimeout id c req) := by
  unfold Client.requestTimeout
  split
  next kind =>
    refine ⟨ClientStands.complete (holds.drop _) _ _ _ fun request listed => ?_,by simp⟩
    exact not_inconsistent issued got (by simp [PendingRequest.type,kind]) listed
  · refine ⟨holds,?_⟩
    split <;> exact forall_toAll fun _ => trivial
  · refine ⟨holds,?_⟩
    split <;> exact forall_toAll fun _ => trivial

theorem clientReceive_stands (replicas : env.config.n = 2 * env.config.f + 1)
    (issued : ClientIssued ledger id c) (p : Packet env.config.n (Message env.config.n)) (target : p.dst = .client id)
    (sound : PacketIssued ledger p) (stands : PacketStands a p) : ClientFollows a id (Client.receiveMessage id c p.msg) := by
  obtain ⟨_,dst,msg⟩ := p
  cases target
  cases msg with
  | replyInconsistent msg =>
    exact handleInconsistentReply_stands holds replicas issued msg (Address.client.inj sound.1).symm stands
  | replyConsensus msg => exact Client.handleConsensusReply_upholds holds holds.panic (fun _ _ _ => consensus_stands holds issued) msg
  | confirm msg => exact ⟨handleConfirm_stands holds issued msg,by simp [Client.receiveMessage]⟩
  | unloggedReply reply k =>
    refine ⟨?_,by simp [Client.receiveMessage]⟩
    change ClientStands a id (Client.handleUnloggedReply c k reply)
    unfold Client.handleUnloggedReply
    split
    · exact holds
    refine ClientStands.complete (holds.drop _) _ _ _ fun request listed => ?_
    obtain ⟨_,_,same,unlogged⟩ := sound
    cases same
    rw [issued.own] at unlogged
    cases unlogged.symm.trans listed
  | _ => exact ⟨holds.panic,by simp [Client.receiveMessage]⟩

theorem ClientStands.issue (issued : ClientIssued ledger id c) (req : PendingRequest env.config.n)
    (next : req.clientReqId = c.lastReqId + 1)
    (empty : ∀ quorum, req.kind = .inconsistent quorum → quorum = .new env.config.quorumSize) : ClientStands a id (c.issue req) where
  pending := by
    intro k new quorum got kind
    by_cases same : k = req.clientReqId
    · simp only [Client.issue,same,update_self,Option.some.injEq] at got
      subst got
      rw [empty quorum kind]
      exact ⟨rfl,fun stamp j m there => absurd there (QuorumSet.not_stored_new _)⟩
    · simp only [Client.issue,update_of_ne same] at got
      exact holds.pending k new quorum got kind
  completed := by
    intro done mem request listed
    have old := issued.past done mem
    simp only [Client.issue,update_of_ne (show done.reqId ≠ req.clientReqId by omega)] at listed
    exact holds.completed done mem request listed

end

end

theorem clientDoes_related {s : System env} {id : Nat} {e : ClientEffect env.config.n} (holds : Related a s)
    (follows : ClientFollows a id e) : Related a (s.clientDoes id e) where
  valid := holds.valid
  leads := holds.leads
  replicas := holds.replicas
  clients := by
    intro other
    rw [System.clientDoes_clients]
    split
    · rename_i same; rw [same]; exact follows.1
    · exact holds.clients other
  packets := by
    exact forall_mem_append.mpr ⟨holds.packets,follows.2⟩

def initialViews : Views env := initial

theorem initial_related (app : σ) : Related initialViews (System.initial app : System env) where
  valid := ViewSet.initial_valid
  leads := by
    intro v first started
    by_cases zero : v = 0
    · exact ⟨∅,by simp [initialViews,initial,zero]⟩
    · simp [initialViews,initial,zero] at started
  replicas := by
    intro i
    refine ⟨⟨rfl,?_,?_,fun _ => rfl,fun odd => absurd rfl odd⟩,rfl,?_,?_⟩
    · simp [initialViews,initial,System.initial,Replica.new,Record.inconsistent]
    · intro w later
      have positive : 0 < w := later
      simp [initialViews,initial,positive.ne']
    · exact fun view j m there => absurd there (QuorumSet.not_stored_new _)
    · exact fun w rec mem => by cases mem
  clients := fun id => ⟨fun k req quorum got => (by cases got),fun done mem => (by cases mem)⟩
  packets := nofun

theorem step_related {s t : System env} (replicas : env.config.n = 2 * env.config.f + 1) (holds : Related a s) (issued : s.Issued)
    (fresh : AcknowledgesFresh s act) (taken : s.step act = some t) : ∃ b, Related b t := by
  cases step_stepped taken with
  | replicaReceives sent target _ =>
    obtain ⟨b,follows⟩ := receive_follows replicas holds issued sent target fresh
    exact ⟨b,follows.related holds⟩
  | viewChange _ =>
    exact ⟨_,(beginViewChange_follows holds.valid holds.leads (holds.replicas _) (Nat.lt_succ_self _)).related holds⟩
  | clientReceives sent target =>
    exact ⟨a,clientDoes_related holds (clientReceive_stands (holds.clients _) replicas (issued.clients _) _ target
      (issued.packets _ sent) (holds.packets _ sent))⟩
  | invokeInconsistent id request =>
    refine ⟨a,clientDoes_related holds ⟨(holds.clients id).issue (issued.clients id) _ rfl ?_,forall_toAll fun _ => trivial⟩⟩
    intro quorum kind
    cases kind
    rfl
  | invokeConsensus id request decide =>
    exact ⟨a,clientDoes_related holds ⟨(holds.clients id).issue (issued.clients id) _ rfl nofun,forall_toAll fun _ => trivial⟩⟩
  | invokeUnlogged id idx request =>
    exact ⟨a,clientDoes_related holds ⟨(holds.clients id).issue (issued.clients id) _ rfl nofun,forall_mem_singleton.mpr trivial⟩⟩
  | requestTimeout got =>
    exact ⟨a,clientDoes_related holds (requestTimeout_stands (holds.clients _) (issued.clients _) got)⟩
  | slowPath got kind _ =>
    exact ⟨a,clientDoes_related holds ((consensus_stands (holds.clients _) (issued.clients _) got kind).transition _)⟩

theorem reached_related (replicas : env.config.n = 2 * env.config.f + 1) (reached : Reached env app AcknowledgesFresh s) :
    ∃ a, Related a s := by
  induction reached with
  | initial => exact ⟨_,initial_related app⟩
  | step before fresh taken ih =>
    obtain ⟨a,holds⟩ := ih
    exact step_related replicas holds (reached_issued before) fresh taken

def Durable (s : System env) : Prop :=
  ∀ id, ∀ done ∈ (s.clients id).completed, ∀ request, (s.clients id).issued done.reqId = some (.logged .inconsistent,request) →
    ∀ i w rec, (w,rec) ∈ (s.replicas i).merges → done.view < w → (rec.find ⟨id,done.reqId⟩).isSome

end

theorem durable_of_fresh_acknowledgements (env : Env σ) (app : σ) (s : System env) (replicas : env.config.n = 2 * env.config.f + 1)
    (reached : Reached env app AcknowledgesFresh s) : Durable s := by
  obtain ⟨_,holds⟩ := reached_related replicas reached
  intro id done member request listed i w rec merge later
  have stored := (holds.clients id).completed done member request listed
  obtain ⟨_,found,_⟩ := ViewSet.stored_started holds.valid stored later ((holds.replicas i).merges w rec merge)
  rw [found]
  rfl

-- Whatever is lost, repeated or merged, a record holds what its client has invoked and nothing else.
theorem records_hold_issued (env : Env σ) (app : σ) (s : System env) (reached : Reached env app (fun _ _ => True) s)
    (i : Fin env.config.n) (op : Opid) (e : RecordEntry) (found : (s.replicas i).record.find op = some e) :
    (s.clients op.clientid).issued op.clientreqid = some (.logged e.type,e.request.op) :=
  ((reached_issued reached).replicas i).1 op e found

def three : Env Lock.Locks := ⟨⟨3,1,three_replicas⟩,Lock.lockServer Lock.plainText⟩

def between (i j : Fin 3) (msg : Message 3) : Action 3 := .deliver ⟨.replica i,.replica j,msg⟩

def releases : String := Lock.Request.text ⟨7,"k",false⟩

def proposed (i : Fin 3) : Action 3 := .deliver ⟨.client 7,.replica i,.proposeInconsistent ⟨releases,7,1⟩⟩

def replied (i : Fin 3) (view : Nat) : Action 3 := .deliver ⟨.replica i,.client 7,.replyInconsistent ⟨view,i,⟨7,1⟩,false⟩⟩

def released : Record := Record.empty.add ⟨0,⟨7,1⟩,.tentative,.inconsistent,⟨releases,7,1⟩,""⟩

-- The release is acknowledged by replicas 0 and 2 in view 0; replica 1 starts view 1
-- from its own record and that of replica 0.
def releasedThenViewChange : List (Action 3) :=
  [.invokeInconsistent 7 releases,proposed 0,proposed 2,replied 0 0,replied 2 0,
    .viewChange 0,between 0 1 (.doViewChange ⟨0,some released,1,0⟩)]

theorem durable_after_view_change : ∃ s : System three, Durable s ∧
    (s.clients 7).completed.map (fun done => (done.reqId,done.view)) = [(1,0)] ∧
    (s.replicas (1 : Fin 3)).merges.map (fun p => (p.1,(p.2.find ⟨7,1⟩).isSome)) = [(1,true)] := by
  obtain ⟨s,reached,seen⟩ := (machine three .empty).reached_of_run AcknowledgesFresh (fun s =>
      (s.clients 7).completed.map (fun done => (done.reqId,done.view)) = [(1,0)] ∧
      (s.replicas (1 : Fin 3)).merges.map (fun p => (p.1,(p.2.find ⟨7,1⟩).isSome)) = [(1,true)])
    releasedThenViewChange (by decide +kernel)
  exact ⟨s,durable_of_fresh_acknowledgements three .empty s rfl reached,seen⟩

theorem records_hold_issued_after_merge : ∃ s : System three, (s.clients 7).issued 1 = some (.logged .inconsistent,releases) := by
  obtain ⟨s,reached,found⟩ := (machine three .empty).reached_of_run (fun _ _ => True) (fun s =>
      (s.replicas (1 : Fin 3)).record.find ⟨7,1⟩ = some ⟨0,⟨7,1⟩,.tentative,.inconsistent,⟨releases,7,1⟩,""⟩)
    releasedThenViewChange (by decide +kernel)
  exact ⟨s,records_hold_issued three .empty s reached (1 : Fin 3) _ _ found⟩

-- Replicas 0 and 2 record and acknowledge the release for view 1 after they have sent
-- their empty records to its leader, whose StartView then takes it from them again.
def acknowledgedInViewChange : List (Action 3) :=
  [.invokeInconsistent 7 releases,.viewChange 0,.viewChange 2,proposed 0,proposed 2,replied 0 1,replied 2 1,
    between 0 1 (.doViewChange ⟨0,some .empty,1,0⟩),between 1 0 (.startView ⟨.empty,1⟩),between 1 2 (.startView ⟨.empty,1⟩),
    .viewChange 0,between 0 2 (.doViewChange ⟨0,some .empty,2,1⟩)]

theorem acknowledged_operation_lost : ¬ ∀ (env : Env Lock.Locks) (s : System env), env.config.n = 2 * env.config.f + 1 →
    Reached env .empty (fun _ _ => True) s → Durable s := by
  intro claimed
  obtain ⟨s,reached,ended,listed,merge⟩ := (machine three .empty).reached_of_run (fun _ _ => True) (fun s =>
      (s.clients 7).completed.map (fun done => (done.reqId,done.view)) = [(1,1)] ∧
      (s.clients 7).issued 1 = some (.logged .inconsistent,releases) ∧ (s.replicas (2 : Fin 3)).merges = [(2,.empty)])
    acknowledgedInViewChange (by decide +kernel)
  obtain ⟨done,member,shape⟩ := mem_map.mp (ended ▸ mem_singleton_self (1,1))
  obtain ⟨reqId,view⟩ := Prod.mk.inj shape
  have kept := claimed three s rfl reached 7 done member releases (reqId ▸ listed) (2 : Fin 3) 2 .empty
    (merge ▸ mem_singleton_self _) (by omega)
  rw [Record.find_empty] at kept
  cases kept

end DbExp.Tapir.Ir
