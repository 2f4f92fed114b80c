import DbExp.Tapir.VrBuffered

namespace DbExp.Tapir
open Function List
namespace Log

-- Each entry passed the assertion of Append: the first is at `start`, every other
-- one place after the entry before it.
def Consecutive (l : Log) : Prop := ∀ (k : Nat) e, l.entries[k]? = some e → e.viewstamp.opnum = l.start + k

end Log

namespace Vr

variable {env : Env σ} {i : Fin env.config.n} {r t u : Replica env.config.n σ}

def Dumped (entries : List LogEntry) (lastOp : Nat) : Prop :=
  (entries = [] → lastOp = 0) ∧ ∃ base, Contiguous base entries ∧ base + entries.length = lastOp

theorem dump_dumped (wf : Log.Wf l) (inside : k ≤ l.items.length) : Dumped (l.dump k) l.items.length := by
  refine ⟨fun nothing => by rw [dump_whole wf inside nothing]; rfl,k - 1,Log.dump_contiguous wf k,?_⟩
  rw [Log.items_length] at *
  rw [Log.dump_eq wf,length_drop]
  omega

structure Reported (msg : DoViewChangeMessage n) : Prop where
  dumped : Dumped msg.entries msg.lastOp
  empty : msg.entries = [] → msg.lastNormalView = 0

-- A replica whose counters and log agree. A panic may leave the process in the middle
-- of CommitUpTo, so the bound on `lastCommitted` is for live ones.
structure Counted (r : Replica n σ) : Prop where
  wf : r.log.Wf
  lastOp : r.lastOp = r.log.items.length
  committed : r.CommittedLogged
  changes : ∀ v j msg, r.doViewChangeQuorum.Stored v j msg → Reported msg

-- What packets say about the logs of their senders. `floor` bounds from below what
-- each replica has committed.
def Shaped (floor : Fin n → Nat) (p : Packet n (Message n)) : Prop :=
  match p.msg with
  | .requestStateTransfer msg => ∃ j, p.src = .replica j ∧ msg.opnum ≤ floor j
  | .stateTransfer msg => ∃ j base, p.dst = .replica j ∧ base ≤ floor j ∧ Contiguous base msg.entries
  | .doViewChange msg => Reported msg
  | .startView msg => Dumped msg.entries msg.lastOp
  | _ => True

theorem Shaped.raised (shaped : Shaped floor p) (raised : ∀ j, floor j ≤ higher j) : Shaped higher p := by
  unfold Shaped at *
  split at shaped
  · obtain ⟨j,src,bound⟩ := shaped
    exact ⟨j,src,bound.trans (raised j)⟩
  · obtain ⟨j,base,dst,bound,places⟩ := shaped
    exact ⟨j,base,dst,bound.trans (raised j),places⟩
  all_goals exact shaped

theorem Ordinary.shaped (ordinary : Ordinary i t p) : Shaped (update floor i t.lastCommitted) p := by
  unfold Ordinary at ordinary
  unfold Shaped
  cases same : p.msg with
  | requestStateTransfer msg =>
    rw [same] at ordinary
    exact ⟨i,ordinary.1,by simpa using ordinary.2⟩
  | stateTransfer msg | doViewChange msg | startView msg => rw [same] at ordinary; exact ordinary.elim
  | _ => trivial

structure Counts (i : Fin n) (floor : Fin n → Nat) (r : Replica n σ) (e : Effect n σ) : Prop where
  counted : Counted e.replica
  raised : r.lastCommitted ≤ e.replica.lastCommitted
  sent : ∀ p ∈ e.sent, Shaped (update floor i e.replica.lastCommitted) p

variable {floor : Fin env.config.n → Nat}

theorem Counts.silent (counted : Counted t) (raised : r.lastCommitted ≤ t.lastCommitted) : Counts i floor r ⟨t,[]⟩ :=
  ⟨counted,raised,nofun⟩

theorem Counts.plain {e : Effect env.config.n σ} (counted : Counted e.replica) (raised : r.lastCommitted ≤ e.replica.lastCommitted)
    (sent : ∀ p ∈ e.sent, Ordinary i e.replica p) : Counts i floor r e :=
  ⟨counted,raised,fun p mem => (sent p mem).shaped⟩

theorem Counts.andThen {e : Effect env.config.n σ} {next : Replica env.config.n σ → Effect env.config.n σ}
    (first : Counts i floor r e)
    (rest : e.replica.panicked = false → Counts i floor e.replica (next e.replica)) : Counts i floor r (e.andThen next) := by
  unfold Effect.andThen
  split
  · exact first
  rename_i live
  have more := rest (by simpa using live)
  refine ⟨more.counted,first.raised.trans more.raised,?_⟩
  exact forall_mem_append.mpr ⟨fun p old => (first.sent p old).raised (update_le_update_iff'.mpr more.raised),more.sent⟩

theorem Counted.steady (counted : Counted r) (steady : Steady r t) : Counted t where
  wf := steady.log.wf counted.wf
  lastOp := by rw [steady.lastOp,steady.log.items]; exact counted.lastOp
  committed := steady.reach counted.wf counted.committed
  changes := by rw [steady.changes]; exact counted.changes

theorem Quiet.counts (quiet : Quiet i r e) (counted : Counted r) : Counts i floor r e :=
  .plain (counted.steady quiet.steady) quiet.steady.committed quiet.sent

theorem Counts.after {e : Effect env.config.n σ} (rest : Counts i floor t e) (raised : r.lastCommitted ≤ t.lastCommitted) :
    Counts i floor r e := ⟨rest.counted,raised.trans rest.raised,rest.sent⟩

def Replica.logged (r : Replica n σ) (request : Request) : Replica n σ :=
  {r with
    lastOp := r.lastOp + 1
    log := r.log.append ⟨r.view,r.lastOp + 1⟩ request .prepared}

theorem enterView_counted (wf : Log.Wf log) (reach : r.lastCommitted ≤ log.items.length) (view old : Nat) :
    Counted {enterView env i {r with lastOp := old, log := log} view with lastOp := log.items.length} :=
  ⟨wf,rfl,fun _ => reach,fun _ _ _ stored => (QuorumSet.not_stored_clear _ stored).elim⟩

section
variable (counted : Counted r)
include counted

theorem closeBatch_counts : Counts i floor r (closeBatch env i r) := by
  unfold closeBatch
  dsimp only
  split
  · exact (panic_quiet r).counts counted
  · exact .plain {counted with} le_rfl (forall_toAll fun _ => trivial)

theorem Counted.extend (wf : log.Wf) (longer : r.log.items.length ≤ log.items.length) :
    Counted {r with lastOp := log.items.length, log := log} :=
  ⟨wf,rfl,fun live => (counted.committed live).trans longer,counted.changes⟩

theorem logged_counted (request : Request) : Counted (r.logged request) := by
  have length : (r.log.append ⟨r.view,r.lastOp + 1⟩ request .prepared).items.length = r.lastOp + 1 := by
    simp [counted.lastOp]
  have wf : (r.log.append ⟨r.view,r.lastOp + 1⟩ request .prepared).Wf := Log.append_wf counted.wf (by rw [counted.lastOp])
  have logged := counted.extend wf (by simp)
  rwa [length] at logged

theorem logRequest_counts : Counts i floor r (logRequest env i r request) := by
  have logged := logged_counted counted request
  unfold logRequest
  dsimp only
  split
  · have closed : Counts i floor r (closeBatch env i (r.logged request)) :=
      .after (closeBatch_counts logged) le_rfl
    refine closed.andThen ?_
    intro _
    exact .silent {closed.counted with} le_rfl
  · refine Counts.andThen (.silent {logged with} le_rfl) ?_
    intro _
    exact .silent {logged with} le_rfl

theorem handleRequest_counts : Counts i floor r (handleRequest env i r remote req) := by
  unfold handleRequest
  split
  · exact .silent counted le_rfl
  split
  · exact .silent counted le_rfl
  dsimp only
  split
  next answer checked =>
    exact .plain {counted with} le_rfl ((clientTableAnswer_replies checked).all fun _ _ _ => trivial)
  split
  · exact .plain {counted with} le_rfl (forall_mem_singleton.mpr trivial)
  · exact .after (logRequest_counts (by exact {counted with})) le_rfl

theorem handlePrepare_counts : Counts i floor r (handlePrepare env i r remote msg) := by
  unfold handlePrepare
  split
  · exact .silent counted le_rfl
  split
  · exact .silent counted le_rfl
  split
  · exact (delayPrepare_quiet r remote msg).counts counted
  split
  · exact (panic_quiet r).counts counted
  dsimp only
  split
  · exact .plain {counted with} le_rfl (forall_mem_singleton.mpr trivial)
  split
  · exact .after (Quiet.counts (delayPrepare_quiet _ remote msg) {counted with}) le_rfl
  rename_i new reach
  obtain ⟨_,_,result,wf,items⟩ := prepareLoop_spec (r := {r with viewChangeTimeout := true}) msg.view
    (msg.batchstart - 1) msg.request counted.wf counted.lastOp (by dsimp only; omega)
  rw [result]
  refine .plain {counted.extend wf ?_ with} le_rfl (forall_mem_singleton.mpr trivial)
  rw [items]
  simp

theorem handleRequestStateTransfer_counts (floored : floor i ≤ r.lastCommitted)
    (asked : ∃ j, remote = .replica j ∧ msg.opnum ≤ floor j) :
    Counts i floor r (handleRequestStateTransfer env i r remote msg) := by
  unfold handleRequestStateTransfer
  split
  · exact .silent counted le_rfl
  split
  · exact (requestStateTransfer_quiet r).counts counted
  refine ⟨counted,le_rfl,forall_mem_singleton.mpr ?_⟩
  obtain ⟨j,rfl,known⟩ := asked
  exact ⟨j,msg.opnum,rfl,known.trans (le_update_self_iff.mpr floored j),Log.dump_contiguous counted.wf _⟩

theorem Counted.orderly (live : r.panicked = false) (known : base ≤ r.lastCommitted) (places : Contiguous base entries) :
    Orderly r base entries := by
  have committed : r.lastCommitted ≤ r.lastOp := counted.lastOp ▸ counted.committed live
  exact ⟨counted.wf,counted.lastOp,committed,places,known.trans committed⟩

theorem handleStateTransfer_counts (live : r.panicked = false) (known : base ≤ r.lastCommitted)
    (places : Contiguous base msg.entries) : Counts i floor r (handleStateTransfer env i r msg) := by
  by_cases stale : msg.view < r.view
  · unfold handleStateTransfer
    rw [if_pos stale]
    exact .silent counted le_rfl
  obtain ⟨new,last,run,merged⟩ := transferLoop_orderly r.lastOp msg.entries (counted.orderly live known places)
  rw [handleStateTransfer_eq stale run live]
  have joined : Counted (joinTransfer env i {r with lastOp := new.items.length, log := new} msg.view) := by
    unfold joinTransfer
    split
    · exact enterView_counted merged.wf merged.reach msg.view new.items.length
    · exact ⟨merged.wf,rfl,fun _ => merged.reach,counted.changes⟩
  have same : (joinTransfer env i {r with lastOp := new.items.length, log := new} msg.view).lastCommitted = r.lastCommitted := by
    unfold joinTransfer
    split <;> rfl
  have quiet := (commitUpTo_quiet (i := i) (joinTransfer env i {r with lastOp := new.items.length, log := new} msg.view)
    msg.opnum).andThen (sendPrepareOKs_quiet _ last)
  have done : Counts i floor r _ := .after (quiet.counts joined) same.ge
  exact done.andThen fun _ => .silent {done.counted with} le_rfl

theorem startViewChange_counts : Counts i floor r (startViewChange env i r newview) :=
  .plain {counted with} le_rfl (forall_toAll fun _ => trivial)

theorem joinViewChange_counts : Counts i floor r (joinViewChange env i r view) := by
  unfold joinViewChange
  split
  · exact startViewChange_counts counted
  · exact .silent counted le_rfl

theorem collectStartViewChange_counts (live : r.panicked = false) :
    Counts i floor r (collectStartViewChange env i r msg) := by
  unfold collectStartViewChange
  dsimp only
  split
  · exact .silent {counted with} le_rfl
  split
  · exact .silent {counted with} le_rfl
  refine ⟨{counted with},le_rfl,forall_mem_singleton.mpr ?_⟩
  have inside : ∀ k, min k r.lastCommitted ≤ r.log.items.length := fun k =>
    (Nat.min_le_right k _).trans (counted.committed live)
  refine ⟨?_,?_⟩
  · rw [counted.lastOp]
    exact dump_dumped counted.wf (inside _)
  · intro nothing
    rw [Log.lastViewstamp_eq counted.wf,dump_whole counted.wf (inside _) nothing]
    rfl

theorem handleStartViewChange_counts :
    Counts i floor r (handleStartViewChange env i r msg) := by
  unfold handleStartViewChange
  split
  · exact .silent counted le_rfl
  split
  · exact .silent counted le_rfl
  have joined : Counts i floor r (joinViewChange env i r msg.view) := joinViewChange_counts counted
  exact joined.andThen fun alive => collectStartViewChange_counts joined.counted alive

end

theorem installLatest_counted (counted : Counted r) (live : r.panicked = false)
    (reported : ∀ kv ∈ msgs, Reported kv.2) (reads : ReadsLatest r.log.lastViewstamp msgs stray)
    (installed : installLatest r ((findLatest r.log.lastViewstamp msgs).read stray) = some log) :
    log.Wf ∧ log.items.length = (findLatest r.log.lastViewstamp msgs).op := by
  obtain ⟨got,run,_,_,source⟩ := findLatest_spec reads
  rw [run] at installed ⊢
  rcases source with ⟨null,_,op⟩ | ⟨read,⟨kv,mem,same⟩,_,op,strict⟩
  · rw [null] at installed
    cases installed
    exact ⟨counted.wf,by rw [op,Log.lastViewstamp_eq counted.wf]⟩
  rw [read] at installed
  rw [← same] at op strict installed
  obtain ⟨⟨last,base,places,whole⟩,empty⟩ := reported kv mem
  unfold installLatest at installed
  dsimp only at installed
  split at installed
  next nothing =>
    -- an empty log is never later than the replica's own
    rw [last nothing,empty nothing] at strict
    unfold NoLater at strict
    omega
  next first rest entries =>
    split at installed
    · cases installed
    cases installed
    have place : first.viewstamp.opnum = base + 1 := by
      rw [entries] at places
      exact places.head
    have committed := counted.committed live
    rw [op,← whole]
    exact Log.replace_length counted.wf places (by omega)

theorem announce_counts (counted : Counted r) (inside : least ≤ r.lastCommitted)
    (latest : Option (DoViewChangeMessage env.config.n)) :
    Counts i floor r ((commitLatest env i r latest).andThen fun r =>
      ⟨r,toAll env i (.startView ⟨r.view,r.lastOp,r.lastCommitted,r.log.dump least⟩)⟩) := by
  have committed : Counts i floor r (commitLatest env i r latest) := (commitLatest_quiet r latest).counts counted
  refine committed.andThen ?_
  intro alive
  refine ⟨committed.counted,le_rfl,forall_toAll fun _ => ?_⟩
  have reach := committed.counted.committed alive
  unfold Shaped
  dsimp only
  rw [committed.counted.lastOp]
  exact dump_dumped committed.counted.wf (inside.trans (committed.raised.trans reach))

theorem startNewView_counts (counted : Counted r) (live : r.panicked = false) (reported : ∀ kv ∈ msgs.entries, Reported kv.2)
    (reads : ReadsLatest r.log.lastViewstamp msgs.entries stray)
    (reaches : r.lastCommitted ≤ (findLatest r.log.lastViewstamp msgs.entries).op) :
    Counts i floor r (startNewView env i r v msgs stray) := by
  unfold startNewView
  dsimp only
  split
  · exact (panic_quiet r).counts counted
  rename_i log installed
  obtain ⟨wf,length⟩ := installLatest_counted counted live reported reads installed
  rw [← length] at reaches ⊢
  exact .after (announce_counts (enterView_counted wf reaches v r.lastOp) (Nat.min_le_right _ _) _) le_rfl

def SelectionFits (r : Replica n σ) (stray : Stray n) (msg : DoViewChangeMessage n) (ends : Nat → Prop) : Prop :=
  ignoresView r msg.view ∨
  ∀ msgs ∈ (r.doViewChangeQuorum.addAndCheckForQuorum msg.view msg.replicaIdx msg).2,
    ReadsLatest r.log.lastViewstamp msgs.entries stray ∧ LatestEnds r.log.lastViewstamp msgs.entries ends

instance (r : Replica n σ) [DecidablePred ends] : Decidable (SelectionFits r stray msg ends) := by
  unfold SelectionFits; infer_instance

-- What a delivery must respect for the counters to stay right: a log that replaces
-- the replica's own reaches what it has committed, and a StartView without entries
-- meets an empty log.
def LogReaches (r : Replica n σ) (stray : Stray n) : Message n → Prop
  | .doViewChange msg => SelectionFits r stray msg (r.lastCommitted ≤ ·)
  | .startView msg => ignoresView r msg.view ∨
      r.lastCommitted ≤ msg.lastOp ∧ (msg.entries = [] → r.log.entries = [])
  | _ => True

instance (r : Replica n σ) (stray : Stray n) : DecidablePred (LogReaches r stray) := fun msg => by
  unfold LogReaches; rcases msg with ⟨⟩ <;> infer_instance

section
variable (counted : Counted r)
include counted

theorem Counted.addChange (reported : Reported msg) :
    Counted {r with doViewChangeQuorum := r.doViewChangeQuorum.add msg.view msg.replicaIdx msg} := by
  refine {counted with changes := ?_}
  intro v j m stored
  rcases QuorumSet.stored_add stored with ⟨rfl,rfl,rfl⟩ | old
  · exact reported
  · exact counted.changes v j m old

theorem quorum_reported (quorum : r.doViewChangeQuorum.checkForQuorum v = some msgs) :
    ∀ kv ∈ msgs.entries, Reported kv.2 := by
  rintro ⟨j,m⟩ mem
  exact counted.changes v j m (((QuorumSet.checkForQuorum_some quorum).2 j m).mp (OrdMap.mem_entries.mp mem))

theorem collectDoViewChange_counts (live : r.panicked = false) (reported : Reported msg)
    (reaches : ∀ msgs ∈ (r.doViewChangeQuorum.addAndCheckForQuorum msg.view msg.replicaIdx msg).2,
      ReadsLatest r.log.lastViewstamp msgs.entries stray ∧
      LatestEnds r.log.lastViewstamp msgs.entries (r.lastCommitted ≤ ·)) :
    Counts i floor r (collectDoViewChange env i r msg stray) := by
  have added := counted.addChange reported
  unfold collectDoViewChange
  dsimp only [QuorumSet.addAndCheckForQuorum] at reaches ⊢
  split
  · exact .silent added le_rfl
  next msgs quorum =>
    obtain ⟨reads,ends⟩ := reaches msgs quorum
    exact .after (startNewView_counts added live (quorum_reported added quorum) reads ends.found) le_rfl

theorem handleDoViewChange_counts (reported : Reported msg) (reaches : LogReaches r stray (.doViewChange msg)) :
    Counts i floor r (handleDoViewChange env i r msg stray) := by
  unfold handleDoViewChange
  split
  · exact .silent counted le_rfl
  split
  · exact .silent counted le_rfl
  rename_i notBelow joins
  have ahead := Or.resolve_left reaches (not_or.mpr ⟨notBelow,joins⟩)
  have joined : Counts i floor r (joinViewChange env i r msg.view) := joinViewChange_counts counted
  have same : Joined r (joinViewChange env i r msg.view).replica msg.view := joinViewChange_joined notBelow
  refine joined.andThen ?_
  intro alive
  refine collectDoViewChange_counts joined.counted alive reported ?_
  rw [same.changes,same.lastCommitted,same.log]
  exact ahead

theorem handleStartView_counts (live : r.panicked = false) (dumped : Dumped msg.entries msg.lastOp)
    (reaches : LogReaches r stray (.startView msg)) : Counts i floor r (handleStartView env i r msg) := by
  unfold handleStartView
  split
  · exact .silent counted le_rfl
  split
  · exact .silent counted le_rfl
  rename_i notBelow joins
  obtain ⟨reach,meets⟩ := Or.resolve_left reaches (not_or.mpr ⟨notBelow,joins⟩)
  obtain ⟨last,_,places,whole⟩ := dumped
  have started : ∀ log : Log, log.Wf → log.items.length = msg.lastOp → Counts i floor r
      ((commitUpTo env i {enterView env i {r with log := log} msg.view with lastOp := msg.lastOp} msg.lastCommitted).andThen
        fun r' => sendPrepareOKs env i r' r.lastOp) := by
    intro log wf length
    rw [← length] at reach ⊢
    exact .after (((commitUpTo_quiet _ _).andThen (sendPrepareOKs_quiet _ _)).counts
      (enterView_counted wf reach msg.view r.lastOp)) le_rfl
  cases entries : msg.entries with
  | nil =>
    refine started r.log counted.wf ?_
    rw [last entries,Log.items_length,meets entries]
    rfl
  | cons first rest =>
    dsimp only
    split
    · exact (panic_quiet r).counts counted
    rename_i log chosen
    split at chosen
    · cases chosen
    cases chosen
    rw [entries] at places whole
    have place := places.head
    have committed := counted.committed live
    obtain ⟨wf,length⟩ := Log.replace_length counted.wf places (by omega)
    rw [whole] at wf length
    exact started _ wf length

end

theorem receiveMessage_counts {s : System env} (counted : Counted (s.replicas i)) (live : (s.replicas i).panicked = false)
    (shaped : Shaped s.floor p) (target : p.dst = .replica i) (reaches : LogReaches (s.replicas i) stray p.msg) :
    Counts i s.floor (s.replicas i) (receiveMessage env i (s.replicas i) p.src stray p.msg) := by
  unfold Shaped at shaped
  cases same : p.msg with
  | request req => exact handleRequest_counts counted
  | unloggedRequest req => exact (handleUnloggedRequest_quiet _).counts counted
  | reply msg | unloggedReply reply clientreqid => exact (panic_quiet _).counts counted
  | prepare msg => exact handlePrepare_counts counted
  | prepareOK msg => exact (handlePrepareOK_quiet _).counts counted
  | commit msg => exact (handleCommit_quiet _).counts counted
  | requestStateTransfer msg =>
    rw [same] at shaped
    exact handleRequestStateTransfer_counts counted le_rfl shaped
  | stateTransfer msg =>
    rw [same] at shaped
    obtain ⟨_,_,dst,bound,places⟩ := shaped
    rw [target] at dst; cases dst
    exact handleStateTransfer_counts counted live bound places
  | startViewChange msg => exact handleStartViewChange_counts counted
  | doViewChange msg =>
    rw [same] at shaped reaches
    exact handleDoViewChange_counts counted shaped reaches
  | startView msg =>
    rw [same] at shaped reaches
    exact handleStartView_counts counted live shaped reaches

theorem sendNullCommit_quiet (r : Replica env.config.n σ) : Quiet i r (sendNullCommit env i r) :=
  ⟨.refl r,forall_toAll fun _ => trivial⟩

theorem resendPrepare_quiet (r : Replica env.config.n σ) : Quiet i r (resendPrepare env i r) := by
  unfold resendPrepare
  split
  · exact .silent (.refl r)
  · exact ⟨.refl r,forall_toAll fun _ => trivial⟩

theorem timerFired_counts (counted : Counted r) : Counts i floor r (timerFired env i r timer) := by
  cases timer with
  | viewChange => exact startViewChange_counts counted
  | nullCommit => exact (sendNullCommit_quiet r).counts counted
  | stateTransfer => exact .silent {counted with} le_rfl
  | resendPrepare => exact (resendPrepare_quiet r).counts counted
  | closeBatch => exact closeBatch_counts counted

structure AllCounted (s : System env) : Prop where
  replicas : ∀ j, Counted (s.replicas j)
  network : ∀ p ∈ s.network, Shaped s.floor p

theorem AllCounted.perform {s : System env} (all : AllCounted s) (counts : Counts i s.floor (s.replicas i) e) :
    AllCounted (s.perform i e) := by
  refine ⟨(forall_update_iff s.replicas fun _ r => Counted r).mpr ⟨counts.counted,fun j _ => all.replicas j⟩,?_⟩
  rw [perform_floor]
  exact forall_mem_append.mpr ⟨fun p old => (all.network p old).raised (le_update_self_iff.mpr counts.raised),counts.sent⟩

theorem AllCounted.client {s : System env} (all : AllCounted s)
    (requests : ∀ p ∈ sent, Asks p) :
    AllCounted (s.clientDoes clientid c sent) := by
  refine ⟨all.replicas,?_⟩
  refine forall_mem_append.mpr ⟨all.network,fun p new => ?_⟩
  unfold Shaped
  rcases requests p new with ⟨_,same⟩ | ⟨_,same⟩ <;> rw [same] <;> trivial

theorem initial_counted (app : σ) : AllCounted (System.initial app : System env) :=
  ⟨fun _ => ⟨Log.Wf.empty,rfl,fun _ => le_rfl,fun _ _ _ stored => (QuorumSet.not_stored_new _ stored).elim⟩,
    nofun⟩

theorem step_counted {s t : System env} (all : AllCounted s) (done : s.step act = some t)
    (reaches : act.Delivers fun j => LogReaches (s.replicas j)) : AllCounted t := by
  cases step_taken done with
  | @received j stray p sent target live =>
    exact all.perform (receiveMessage_counts (all.replicas j) live (all.network p sent) target (reaches.to target))
  | fired armed => exact all.perform (timerFired_counts (all.replicas _))
  | client requests => exact all.client requests

theorem reached_counted {allow : System env → Action env.config.n → Prop} {s : System env}
    (guards : ∀ s act, allow s act → act.Delivers fun j => LogReaches (s.replicas j))
    (reached : Reached env app allow s) : AllCounted s := by
  induction reached with
  | initial => exact initial_counted app
  | step _ allowed taken ih => exact step_counted ih taken (guards _ _ allowed)

def CountersRight (s : System env) : Prop :=
  ∀ j, (s.replicas j).lastOp = (s.replicas j).log.lastOpnum ∧ (s.replicas j).log.Consecutive

-- In runs where no log is replaced by one that ends below what its owner committed,
-- and none is left in place by a StartView without entries.
theorem counters_right_of_reaching_logs (env : Env σ) (app : σ) (s : System env)
    (reached : Reached env app (fun s act => act.Delivers fun j => LogReaches (s.replicas j)) s) :
    CountersRight s := by
  have all := reached_counted (fun _ _ allowed => allowed) reached
  intro j
  have counted := all.replicas j
  refine ⟨by rw [Log.lastOpnum_eq counted.wf]; exact counted.lastOp,?_⟩
  intro k e here
  have place := counted.wf.places k e here
  have first := counted.wf.start
  omega

theorem counters_right_after_handover : ∃ s : System three, CountersRight s ∧
    (s.replicas (2 : Fin 3)).lastOp = 2 ∧ (s.replicas (2 : Fin 3)).view = 1 := by
  obtain ⟨s,reached,seen⟩ := (machine three ()).reached_of_run (fun s act => act.Delivers fun j => LogReaches (s.replicas j))
    (fun s => (s.replicas (2 : Fin 3)).lastOp = 2 ∧ (s.replicas (2 : Fin 3)).view = 1) handover (by decide +kernel)
  exact ⟨s,counters_right_of_reaching_logs three () s reached,seen⟩

-- Replica 0 logs "x", which reaches nobody. Replicas 1 and 2 start view 1 with an
-- empty log, and their StartView leaves "x" in replica 0's log under a lastOp of 0.
def startedEmpty : List (Action 3) :=
  [.invoke 5 "x",asks 5 0 "x",.timeout 2 .viewChange,between 2 1 (.startViewChange ⟨1,2,0⟩),
    between 1 2 (.startViewChange ⟨1,1,0⟩),between 2 1 (.doViewChange ⟨1,0,0,0,[],2⟩),between 1 0 (.startView ⟨1,0,0,[]⟩)]

theorem counter_left_by_empty_start_view : ¬ ∀ (env : Env Unit) (s : System env), Reached env () (fun _ _ => True) s →
    CountersRight s := by
  intro right
  obtain ⟨s,reached,counter,last⟩ := (machine three ()).reached_of_run (fun _ _ => True)
    (fun s => (s.replicas (0 : Fin 3)).lastOp = 0 ∧ (s.replicas (0 : Fin 3)).log.lastOpnum = 1) startedEmpty (by decide +kernel)
  have same := (right three s reached (0 : Fin 3)).1
  rw [counter,last] at same
  cases same

end Vr
end DbExp.Tapir
