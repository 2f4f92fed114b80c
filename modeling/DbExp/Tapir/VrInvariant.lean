import DbExp.Foundation.ViewLog
import DbExp.Tapir.VrSystem

namespace DbExp.Tapir.Vr
open ViewLog

-- The abstract state behind a system: which log every replica held in every view
-- it was NORMAL in. Entries are stamped with the view they were first logged in.
abbrev Views (env : Env σ) := ViewLog.State (Fin env.config.n) (Nat × Request)

abbrev Env.leader (env : Env σ) : Nat → Fin env.config.n := env.config.getLeaderIndex

def numbered (items : List (Nat × Request)) : List (Nat × Request) := items.mapIdx fun k e => (k+1,e.2)

theorem numbered_snoc (items : List (Nat × Request)) (e : Nat × Request) :
    numbered (items ++ [e]) = numbered items ++ [(items.length + 1,e.2)] := by
  simp [numbered,List.mapIdx_append]

theorem mem_numbered : (k,req) ∈ numbered items ↔ ∃ j w, k = j+1 ∧ items[j]? = some (w,req) := by
  unfold numbered
  rw [List.mem_iff_getElem?]
  constructor
  · rintro ⟨j,here⟩
    rw [List.getElem?_mapIdx] at here
    obtain ⟨⟨w,_⟩,place,same⟩ := Option.map_eq_some_iff.mp here
    cases same
    exact ⟨j,w,rfl,place⟩
  · rintro ⟨j,w,rfl,place⟩
    exact ⟨j,by simp [place]⟩

section
variable {env : Env σ}

structure Carries (base : Nat) (log : List (Nat × Request)) (entries : List LogEntry) : Prop where
  items : entries.map LogEntry.item = log.drop base
  places : Contiguous base entries

section
variable (a : Views env)

structure PrepareOf (msg : PrepareMessage) (full : List (Nat × Request)) : Prop where
  source : a.held (env.leader msg.view) msg.view = some full
  bound : msg.opnum ≤ full.length
  count : msg.batchstart ≤ msg.opnum + 1 → msg.batchstart - 1 + msg.request.length = msg.opnum
  slice : ∀ (k : Nat) req, msg.request[k]? = some req → ∃ w, full[msg.batchstart - 1 + k]? = some (w,req)

structure AckOf (view opnum : Nat) (j : Fin env.config.n) (log : List (Nat × Request)) : Prop where
  follower : j ≠ env.leader view
  held : a.held j view = some log
  enough : opnum ≤ log.length

structure CommitOf (msg : CommitMessage) (full : List (Nat × Request)) : Prop where
  source : a.held (env.leader msg.view) msg.view = some full
  bound : msg.opnum ≤ full.length
  settled : Settled env.leader a msg.view (full.take msg.opnum)

structure TransferOf (floor : Nat) (msg : StateTransferMessage) (base : Nat)
    (log full : List (Nat × Request)) : Prop where
  source : a.held (env.leader msg.view) msg.view = some full
  above : a.start msg.view <+: log
  below : log <+: full
  carries : Carries base log msg.entries
  known : base ≤ floor
  bound : msg.opnum ≤ log.length
  settled : Settled env.leader a msg.view (log.take msg.opnum)

structure DoViewChangeOf (msg : DoViewChangeMessage env.config.n) (last base : Nat)
    (log : List (Nat × Request)) : Prop where
  earlier : last < msg.view
  left : msg.view ≤ a.view msg.replicaIdx
  held : a.held msg.replicaIdx last = some log
  none : ∀ w, last < w → w < msg.view → a.held msg.replicaIdx w = none
  follower : msg.replicaIdx ≠ env.leader msg.view
  lastOp : msg.lastOp = log.length
  lastView : msg.lastNormalView = Log.lastView log
  carries : Carries base log msg.entries
  whole : msg.entries = [] → log = []
  bound : msg.lastCommitted ≤ log.length
  settled : Settled env.leader a last (log.take msg.lastCommitted)

structure StartViewOf (msg : StartViewMessage) (base : Nat) (full : List (Nat × Request)) : Prop where
  source : a.held (env.leader msg.view) msg.view = some full
  lastOp : msg.lastOp = (a.start msg.view).length
  carries : Carries base (a.start msg.view) msg.entries
  whole : msg.entries = [] → a.start msg.view = []
  bound : msg.lastCommitted ≤ (a.start msg.view).length
  settled : Settled env.leader a msg.view ((a.start msg.view).take msg.lastCommitted)

end

section
variable (a : Views env)

def PrepareFact (msg : PrepareMessage) : Prop := ∃ full, PrepareOf a msg full
def AckFact (view opnum : Nat) (j : Fin env.config.n) : Prop := ∃ log, AckOf a view opnum j log
def CommitFact (msg : CommitMessage) : Prop := ∃ full, CommitOf a msg full
def TransferFact (floor : Nat) (msg : StateTransferMessage) : Prop :=
  ∃ base log full, TransferOf a floor msg base log full
def DoViewChangeFact (msg : DoViewChangeMessage env.config.n) : Prop :=
  ∃ last base log, DoViewChangeOf a msg last base log
def StartViewFact (msg : StartViewMessage) : Prop := ∃ base full, StartViewOf a msg base full

def Sent (floor : Fin env.config.n → Nat) (p : Packet env.config.n (Message env.config.n)) : Prop :=
  match p.msg with
  | .prepare msg => PrepareFact a msg
  | .prepareOK msg => AckFact a msg.view msg.opnum msg.replicaIdx
  | .commit msg => CommitFact a msg
  | .requestStateTransfer msg => ∃ j, p.src = .replica j ∧ msg.opnum ≤ floor j
  | .stateTransfer msg => ∃ j, p.dst = .replica j ∧ TransferFact a (floor j) msg
  | .doViewChange msg => p.dst = .replica (env.leader msg.view) ∧ DoViewChangeFact a msg
  | .startView msg => StartViewFact a msg
  | _ => True

end

variable {a b : Views env}

section
variable (grown : Grows env.leader a b)
include grown

theorem PrepareFact.grows (fact : PrepareFact a msg) : PrepareFact b msg := by
  obtain ⟨_,of⟩ := fact
  obtain ⟨_,there,_,rfl⟩ := grown.kept _ _ _ of.source
  refine ⟨_,there,of.bound.trans (by simp),of.count,?_⟩
  intro k req here
  obtain ⟨w,place⟩ := of.slice k req here
  exact ⟨w,by rw [List.getElem?_append_left (List.getElem?_eq_some_iff.mp place).1]; exact place⟩

theorem AckFact.grows (fact : AckFact a view opnum j) : AckFact b view opnum j := by
  obtain ⟨_,of⟩ := fact
  obtain ⟨more,there,longer⟩ := grown.kept _ _ _ of.held
  exact ⟨more,of.follower,there,of.enough.trans longer.length_le⟩

theorem CommitFact.grows (fact : CommitFact a msg) : CommitFact b msg := by
  obtain ⟨_,of⟩ := fact
  obtain ⟨_,there,_,rfl⟩ := grown.kept _ _ _ of.source
  refine ⟨_,there,of.bound.trans (by simp),?_⟩
  rw [List.take_append_of_le_length of.bound]
  exact of.settled.grows grown

theorem TransferOf.grows (of : TransferOf a floor msg base log full) (raised : floor ≤ higher) :
    ∃ more, TransferOf b higher msg base log more := by
  obtain ⟨more,there,longer⟩ := grown.kept _ _ _ of.source
  have begun := grown.started _ _ of.source
  exact ⟨more,there,begun ▸ of.above,of.below.trans longer,of.carries,of.known.trans raised,of.bound,of.settled.grows grown⟩

theorem TransferFact.grows (fact : TransferFact a floor msg) (raised : floor ≤ higher) :
    TransferFact b higher msg := by
  obtain ⟨base,log,_,of⟩ := fact
  exact ⟨base,log,of.grows grown raised⟩

theorem DoViewChangeFact.grows (fact : DoViewChangeFact a msg) : DoViewChangeFact b msg := by
  obtain ⟨last,base,log,of⟩ := fact
  refine ⟨last,base,log,{of with left := of.left.trans (grown.view _), held := ?_, none := ?_, settled := of.settled.grows grown}⟩
  · rw [grown.frozen _ _ (of.earlier.trans_le of.left)]; exact of.held
  · intro w later early
    rw [grown.frozen _ _ (early.trans_le of.left)]; exact of.none w later early

theorem StartViewFact.grows (fact : StartViewFact a msg) : StartViewFact b msg := by
  obtain ⟨base,_,of⟩ := fact
  obtain ⟨more,there,_⟩ := grown.kept _ _ _ of.source
  have begun := grown.started _ _ of.source
  refine ⟨base,more,there,?_,?_,?_,?_,?_⟩
  all_goals rw [begun]
  · exact of.lastOp
  · exact of.carries
  · exact of.whole
  · exact of.bound
  · exact of.settled.grows grown

theorem Sent.grows (fact : Sent a floor p) (raised : ∀ j, floor j ≤ higher j) :
    Sent b higher p := by
  unfold Sent at *
  cases msg : p.msg with
  | prepare m => rw [msg] at fact; exact PrepareFact.grows grown fact
  | prepareOK m => rw [msg] at fact; exact AckFact.grows grown fact
  | commit m => rw [msg] at fact; exact CommitFact.grows grown fact
  | requestStateTransfer m =>
    rw [msg] at fact
    obtain ⟨j,src,bound⟩ := fact
    exact ⟨j,src,bound.trans (raised j)⟩
  | stateTransfer m =>
    rw [msg] at fact
    obtain ⟨j,dst,transfer⟩ := fact
    exact ⟨j,dst,transfer.grows grown (raised j)⟩
  | doViewChange m => rw [msg] at fact; exact ⟨fact.1,fact.2.grows grown⟩
  | startView m => rw [msg] at fact; exact StartViewFact.grows grown fact
  | _ => trivial

end

-- Where a replica stands: `last` is the latest view it was NORMAL in, its log is
-- what it holds there and what it has committed is settled by then.
structure Stands (a : Views env) (i : Fin env.config.n) (view : Nat) (status : ReplicaStatus)
    (items : List (Nat × Request)) (committed last : Nat) : Prop where
  held : a.held i last = some items
  reached : last ≤ view
  normal : status = .normal ↔ last = view
  later : ∀ w, last < w → a.held i w = none
  settled : Settled env.leader a last (items.take committed)

structure Holds (a : Views env) (i : Fin env.config.n) (r : Replica env.config.n σ) : Prop where
  wf : r.log.Wf
  view : a.view i = r.view
  lastOp : r.lastOp = r.log.items.length
  stands : ∃ last, Stands a i r.view r.status r.log.items r.lastCommitted last
  committed : r.lastCommitted ≤ r.log.items.length
  executed : r.executed = numbered (r.log.items.take r.lastCommitted)
  entered : ∀ w, w ∈ r.entered ↔ ∃ log, a.held i w = some log
  acksRequired : r.prepareOKQuorum.numRequired = env.config.f
  changesRequired : r.doViewChangeQuorum.numRequired = env.config.f
  acks : ∀ vs j msg, r.prepareOKQuorum.Stored vs j msg → AckFact a vs.view vs.opnum j
  changes : ∀ v j msg, r.doViewChangeQuorum.Stored v j msg → msg.view = v ∧ msg.replicaIdx = j ∧ DoViewChangeFact a msg
  prepared : PrepareFact a r.lastPrepare
  closing : r.closeBatchTimeout = true → r.status = .normal ∧ env.leader r.view = i
  beating : r.nullCommitTimeout = true → r.status = .normal

theorem Stands.grows (stands : Stands a i view status items committed last) (grown : Grows env.leader a b)
    (same : b.held i = a.held i) : Stands b i view status items committed last := by
  refine ⟨?_,stands.reached,stands.normal,?_,stands.settled.grows grown⟩
  · rw [same]; exact stands.held
  · rw [same]; exact stands.later

theorem Holds.grows (holds : Holds a i r) (grown : Grows env.leader a b) (view : b.view i = a.view i)
    (same : b.held i = a.held i) : Holds b i r := by
  obtain ⟨last,stands⟩ := holds.stands
  refine {holds with
    view := view.trans holds.view
    stands := ⟨last,stands.grows grown same⟩
    entered := ?_
    acks := ?_
    changes := ?_
    prepared := holds.prepared.grows grown}
  · rw [same]; exact holds.entered
  · intro vs j msg stored
    exact (holds.acks vs j msg stored).grows grown
  · intro v j msg stored
    obtain ⟨view,idx,fact⟩ := holds.changes v j msg stored
    exact ⟨view,idx,fact.grows grown⟩

theorem Holds.now (holds : Holds a i r) (normal : r.status = .normal) :
    a.held i r.view = some r.log.items ∧ Settled env.leader a r.view (r.log.items.take r.lastCommitted) := by
  obtain ⟨_,stands⟩ := holds.stands
  obtain rfl := stands.normal.mp normal
  exact ⟨stands.held,stands.settled⟩

end
end DbExp.Tapir.Vr
