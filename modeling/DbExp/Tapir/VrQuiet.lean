import DbExp.Tapir.VrSystem

namespace DbExp.Tapir.Vr
open List

variable {env : Env σ} {i : Fin env.config.n} {r t u : Replica env.config.n σ}

def Replica.CommittedLogged (r : Replica n σ) : Prop := r.panicked = false → r.lastCommitted ≤ r.log.items.length

-- What committing and acknowledging leave alone in any replica at all, a broken one
-- included: only states of entries, the client table and the application change.
structure Steady (r t : Replica n σ) : Prop where
  log : t.log.Alike r.log
  view : t.view = r.view
  status : t.status = r.status
  lastOp : t.lastOp = r.lastOp
  lastBatchEnd : t.lastBatchEnd = r.lastBatchEnd
  entered : t.entered = r.entered
  closeBatchTimeout : t.closeBatchTimeout = r.closeBatchTimeout
  changes : t.doViewChangeQuorum = r.doViewChangeQuorum
  committed : r.lastCommitted ≤ t.lastCommitted
  reach : r.log.Wf → r.CommittedLogged → t.CommittedLogged

theorem Steady.refl (r : Replica n σ) : Steady r r := ⟨.refl _,rfl,rfl,rfl,rfl,rfl,rfl,rfl,le_rfl,fun _ => id⟩

theorem Steady.trans (one : Steady r t) (two : Steady t u) : Steady r u where
  log := two.log.trans one.log
  view := two.view.trans one.view
  status := two.status.trans one.status
  lastOp := two.lastOp.trans one.lastOp
  lastBatchEnd := two.lastBatchEnd.trans one.lastBatchEnd
  entered := two.entered.trans one.entered
  closeBatchTimeout := two.closeBatchTimeout.trans one.closeBatchTimeout
  changes := two.changes.trans one.changes
  committed := one.committed.trans two.committed
  reach := fun wf bound => two.reach (one.log.wf wf) (one.reach wf bound)

theorem commitNext_steady (r : Replica env.config.n σ) : Steady r (commitNext env i r).replica := by
  unfold commitNext
  split
  · exact ⟨.refl _,rfl,rfl,rfl,rfl,rfl,rfl,rfl,Nat.le_succ _,fun _ _ live => by cases live⟩
  rename_i entry got
  have alike := Log.setStatus_alike r.log (r.lastCommitted + 1) .committed
  exact ⟨alike,rfl,rfl,rfl,rfl,rfl,rfl,rfl,Nat.le_succ _,fun wf _ _ => alike.items ▸ Log.find_inside wf got⟩

theorem sendPrepareOK_steady (r : Replica env.config.n σ) (k : Nat) : Steady r (sendPrepareOK env i r k).replica := by
  unfold sendPrepareOK
  split
  · exact .refl r
  split
  · exact ⟨.refl _,rfl,rfl,rfl,rfl,rfl,rfl,rfl,le_rfl,fun _ _ live => by cases live⟩
  · exact ⟨.refl _,rfl,rfl,rfl,rfl,rfl,rfl,rfl,le_rfl,fun _ bound => bound⟩

-- Packets that carry no log. A request for a transfer names no more than its sender
-- has committed.
def Ordinary (i : Fin n) (t : Replica n σ) (p : Packet n (Message n)) : Prop :=
  match p.msg with
  | .requestStateTransfer msg => p.src = .replica i ∧ msg.opnum ≤ t.lastCommitted
  | .stateTransfer _ => False
  | .doViewChange _ => False
  | .startView _ => False
  | _ => True

theorem Ordinary.later (ordinary : Ordinary i r p) (raised : r.lastCommitted ≤ t.lastCommitted) : Ordinary i t p := by
  unfold Ordinary at *
  split at ordinary
  · exact ⟨ordinary.1,ordinary.2.trans raised⟩
  all_goals first | exact ordinary.elim | trivial

structure Quiet (i : Fin n) (r : Replica n σ) (e : Effect n σ) : Prop where
  steady : Steady r e.replica
  sent : ∀ p ∈ e.sent, Ordinary i e.replica p

theorem Effect.andThen_replica {fact : Replica n σ → Prop} {e : Effect n σ} {next : Replica n σ → Effect n σ} (first : fact e.replica)
    (rest : fact (next e.replica).replica) : fact (e.andThen next).replica := by
  unfold Effect.andThen
  split
  · exact first
  · exact rest

theorem Effect.andThen_sent {fact : Packet n (Message n) → Prop} {e : Effect n σ} {next : Replica n σ → Effect n σ}
    (first : ∀ p ∈ e.sent, fact p) (rest : ∀ p ∈ (next e.replica).sent, fact p) : ∀ p ∈ (e.andThen next).sent, fact p := by
  unfold Effect.andThen
  split
  · exact first
  · exact forall_mem_append.mpr ⟨first,rest⟩

theorem Quiet.silent (steady : Steady r t) : Quiet i r ⟨t,[]⟩ := ⟨steady,nofun⟩

theorem Quiet.andThen {e : Effect env.config.n σ} {next : Replica env.config.n σ → Effect env.config.n σ}
    (first : Quiet i r e) (rest : Quiet i e.replica (next e.replica)) : Quiet i r (e.andThen next) := by
  unfold Effect.andThen
  split
  · exact first
  · exact ⟨first.steady.trans rest.steady,
      forall_mem_append.mpr ⟨fun p old => (first.sent p old).later rest.steady.committed,rest.sent⟩⟩

theorem panic_quiet (r : Replica env.config.n σ) : Quiet i r r.panic :=
  .silent {Steady.refl r with reach := fun _ _ live => by cases live}

def OnlyReplies (sent : List (Packet n (Message n))) : Prop := ∀ p ∈ sent, ∃ msg, p.msg = .reply msg

theorem OnlyReplies.all {fact : Packet n (Message n) → Prop} (only : OnlyReplies sent) (each : ∀ src dst msg, fact ⟨src,dst,.reply msg⟩) :
    ∀ p ∈ sent, fact p := by
  rintro ⟨src,dst,_⟩ mem
  obtain ⟨msg,rfl⟩ := only _ mem
  exact each src dst msg

theorem requestStateTransfer_quiet (r : Replica env.config.n σ) : Quiet i r (requestStateTransfer env i r) := by
  unfold requestStateTransfer
  split
  · exact .silent (.refl r)
  · exact ⟨{Steady.refl r with},forall_toAll fun dst => ⟨rfl,le_rfl⟩⟩

theorem commitNext_replies (r : Replica env.config.n σ) : OnlyReplies (commitNext env i r).sent := by
  unfold commitNext
  split
  · exact nofun
  dsimp only
  split
  · exact forall_mem_singleton.mpr ⟨_,rfl⟩
  · exact nofun

theorem commitLoop_replies (k : Nat) (r : Replica env.config.n σ) : OnlyReplies (commitLoop env i k r).sent := by
  induction k generalizing r with
  | zero => exact nofun
  | succ k ih => exact Effect.andThen_sent (commitNext_replies r) (ih _)

theorem commitNext_quiet (r : Replica env.config.n σ) : Quiet i r (commitNext env i r) :=
  ⟨commitNext_steady r,(commitNext_replies r).all fun _ _ _ => trivial⟩

theorem commitLoop_quiet (k : Nat) (r : Replica env.config.n σ) : Quiet i r (commitLoop env i k r) := by
  induction k generalizing r with
  | zero => exact .silent (.refl r)
  | succ k ih => exact (commitNext_quiet r).andThen (ih _)

theorem commitUpTo_quiet (r : Replica env.config.n σ) (upto : Nat) : Quiet i r (commitUpTo env i r upto) := commitLoop_quiet _ r

theorem commitLatest_quiet (r : Replica env.config.n σ) (latest : Option (DoViewChangeMessage env.config.n)) :
    Quiet i r (commitLatest env i r latest) := by
  cases latest with
  | none => exact .silent (.refl r)
  | some msg => exact commitUpTo_quiet r msg.lastCommitted

theorem sendPrepareOK_quiet (r : Replica env.config.n σ) (k : Nat) : Quiet i r (sendPrepareOK env i r k) := by
  refine ⟨sendPrepareOK_steady r k,?_⟩
  unfold sendPrepareOK
  split
  · exact nofun
  split
  · exact nofun
  · exact forall_mem_singleton.mpr trivial

theorem sendPrepareOKsLoop_quiet (ks : List Nat) (r : Replica env.config.n σ) :
    Quiet i r (sendPrepareOKsLoop env i ks r) := by
  induction ks generalizing r with
  | nil => exact .silent (.refl r)
  | cons k rest ih => exact (sendPrepareOK_quiet r k).andThen (ih _)

theorem sendPrepareOKs_quiet (r : Replica env.config.n σ) (old : Nat) : Quiet i r (sendPrepareOKs env i r old) :=
  sendPrepareOKsLoop_quiet _ r

-- What is acknowledged is in the log and not yet committed.
def AcksHeld (i : Fin n) (r : Replica n σ) (sent : List (Packet n (Message n))) : Prop :=
  ∀ p ∈ sent, ∃ k x, p.msg = .prepareOK ⟨r.view,k,i⟩ ∧ r.lastCommitted < k ∧ r.log.find k = some x

theorem AcksHeld.before (held : AcksHeld i t sent) (steady : Steady r t) : AcksHeld i r sent := by
  intro p mem
  obtain ⟨k,x,same,new,got⟩ := held p mem
  have there := steady.log.find k
  rw [got,Option.map_some,eq_comm,Option.map_eq_some_iff] at there
  obtain ⟨y,here,_⟩ := there
  exact ⟨k,y,steady.view ▸ same,steady.committed.trans_lt new,here⟩

theorem sendPrepareOK_held (r : Replica env.config.n σ) (k : Nat) : AcksHeld i r (sendPrepareOK env i r k).sent := by
  unfold sendPrepareOK
  split
  · exact nofun
  split
  · exact nofun
  rename_i new _ entry got
  exact forall_mem_singleton.mpr ⟨k,entry,rfl,Nat.lt_of_not_le new,got⟩

theorem sendPrepareOKsLoop_held (ks : List Nat) (r : Replica env.config.n σ) : AcksHeld i r (sendPrepareOKsLoop env i ks r).sent := by
  induction ks generalizing r with
  | nil => exact nofun
  | cons k rest ih => exact Effect.andThen_sent (sendPrepareOK_held r k) ((ih _).before (sendPrepareOK_steady r k))

theorem Quiet.from (quiet : Quiet i t e) (steady : Steady r t) : Quiet i r e := ⟨steady.trans quiet.steady,quiet.sent⟩

theorem handleUnloggedRequest_quiet (r : Replica env.config.n σ) :
    Quiet i r (handleUnloggedRequest env i r remote req) := by
  unfold handleUnloggedRequest
  split
  · exact .silent (.refl r)
  · exact ⟨{Steady.refl r with},forall_mem_singleton.mpr trivial⟩

theorem handlePrepareOK_quiet (r : Replica env.config.n σ) : Quiet i r (handlePrepareOK env i r msg) := by
  unfold handlePrepareOK
  split
  · exact .silent (.refl r)
  split
  · exact .silent (.refl r)
  split
  · exact requestStateTransfer_quiet r
  split
  · exact .silent (.refl r)
  dsimp only
  split
  · exact .silent {Steady.refl r with}
  refine ((commitUpTo_quiet _ _).andThen ?_).from {Steady.refl r with}
  split
  · exact .silent (.refl _)
  · exact ⟨{Steady.refl _ with},forall_toAll fun _ => trivial⟩

theorem handleCommit_quiet (r : Replica env.config.n σ) : Quiet i r (handleCommit env i r msg) := by
  unfold handleCommit
  split
  · exact .silent (.refl r)
  split
  · exact .silent (.refl r)
  split
  · exact requestStateTransfer_quiet r
  split
  · exact panic_quiet r
  dsimp only
  split
  · exact .silent {Steady.refl r with}
  split
  · exact (requestStateTransfer_quiet _).from {Steady.refl r with}
  · exact (commitUpTo_quiet _ _).from {Steady.refl r with}

theorem delayPrepare_quiet (r : Replica env.config.n σ) (remote : Address env.config.n) (msg : PrepareMessage) :
    Quiet i r ((requestStateTransfer env i r).andThen fun r =>
      ⟨{r with pendingPrepares := r.pendingPrepares ++ [(remote,msg)]},[]⟩) :=
  (requestStateTransfer_quiet r).andThen (.silent {Steady.refl _ with})

end DbExp.Tapir.Vr
