import DbExp.Tapir.VrCounters

namespace DbExp.Tapir.Vr
open Function List

variable {env : Env σ} {i : Fin env.config.n} {r t : Replica env.config.n σ} {led : Nat → Prop}

section
variable (i : Fin env.config.n) (r : Replica env.config.n σ)

def BatchOpen : Prop :=
  r.status = .normal → env.leader r.view = i → r.lastBatchEnd ≤ r.lastOp ∧
    ∀ e ∈ r.log.entries, r.lastBatchEnd < e.viewstamp.opnum → e.viewstamp.opnum ≤ r.lastOp → e.viewstamp.view = r.view

structure CloseBatchAsserts : Prop where
  leads : r.AmLeader env i
  pending : r.lastBatchEnd < r.lastOp
  entries : ∀ k, r.lastBatchEnd < k → k ≤ r.lastOp → ∃ e, r.log.find k = some e ∧ e.viewstamp.view = r.view ∧
    e.viewstamp.opnum = k

end

structure BatchesRight (s : System env) : Prop where
  batches : ∀ j, BatchOpen j (s.replicas j)
  timers : ∀ j, (s.replicas j).closeBatchTimeout = true → CloseBatchAsserts j (s.replicas j)
  requests : ∀ j request, (s.replicas j).status = .normal → (s.replicas j).AmLeader env j →
    CloseBatchAsserts j ((s.replicas j).logged request)

section
variable (led : Nat → Prop) (i : Fin env.config.n)

-- `led` holds of the views whose leader has entered them. A replica enters a view that
-- it leads only by collecting DoViewChange messages, so `i` has entered such a view
-- before anyone can tell it of it.
def LedAfter (t : Replica env.config.n σ) (view : Nat) : Prop :=
  led view ∨ env.leader view = i ∧ view ∈ t.entered

structure Batched (r : Replica env.config.n σ) : Prop where
  batch : r.status = .normal → env.leader r.view = i → r.lastBatchEnd ≤ r.lastOp ∧
    ∀ e ∈ r.log.entries, r.lastBatchEnd < e.viewstamp.opnum → e.viewstamp.view = r.view
  closing : r.closeBatchTimeout = true → r.status = .normal ∧ env.leader r.view = i ∧ r.lastBatchEnd < r.lastOp
  past : ∀ v ∈ r.entered, v < r.view ∨ v = r.view ∧ r.status = .normal
  normal : r.status = .normal → LedAfter led i r r.view

def Leads (t : Replica env.config.n σ) (p : Packet env.config.n (Message env.config.n)) :
    Prop :=
  match p.msg with
  | .stateTransfer msg => LedAfter led i t msg.view
  | .startView msg => LedAfter led i t msg.view
  | .doViewChange msg => p.dst = .replica (env.leader msg.view)
  | _ => True

end

theorem LedAfter.later (after : LedAfter led i r view) (entered : ∀ v ∈ r.entered, v ∈ t.entered) : LedAfter led i t view :=
  after.imp_right fun ⟨leads,mem⟩ => ⟨leads,entered _ mem⟩

theorem Leads.later (leads : Leads led i r p) (entered : ∀ v ∈ r.entered, v ∈ t.entered) : Leads led i t p := by
  unfold Leads at *
  split at leads
  · exact LedAfter.later leads entered
  · exact LedAfter.later leads entered
  · exact leads
  · trivial

theorem Ordinary.leads (ordinary : Ordinary i t p) : Leads led i r p := by
  unfold Ordinary at ordinary
  unfold Leads
  cases same : p.msg with
  | stateTransfer msg | doViewChange msg | startView msg => rw [same] at ordinary; exact ordinary.elim
  | _ => trivial

structure Batches (led : Nat → Prop) (i : Fin env.config.n) (r : Replica env.config.n σ) (e : Effect env.config.n σ) : Prop where
  batched : Batched led i e.replica
  entered : ∀ v ∈ r.entered, v ∈ e.replica.entered
  sent : ∀ p ∈ e.sent, Leads led i e.replica p

theorem Batches.silent (batched : Batched led i t) (entered : ∀ v ∈ r.entered, v ∈ t.entered) : Batches led i r ⟨t,[]⟩ :=
  ⟨batched,entered,nofun⟩

theorem Batches.plain {e : Effect env.config.n σ} (batched : Batched led i e.replica)
    (entered : ∀ v ∈ r.entered, v ∈ e.replica.entered) (sent : ∀ p ∈ e.sent, Ordinary i e.replica p) : Batches led i r e :=
  ⟨batched,entered,fun p mem => (sent p mem).leads⟩

theorem Batches.after {e : Effect env.config.n σ} (rest : Batches led i t e) (entered : ∀ v ∈ r.entered, v ∈ t.entered) :
    Batches led i r e := ⟨rest.batched,fun v mem => rest.entered v (entered v mem),rest.sent⟩

theorem Batches.andThen {e : Effect env.config.n σ} {next : Replica env.config.n σ → Effect env.config.n σ}
    (first : Batches led i r e)
    (rest : e.replica.panicked = false → Batches led i e.replica (next e.replica)) : Batches led i r (e.andThen next) := by
  unfold Effect.andThen
  split
  · exact first
  rename_i live
  have more := rest (by simpa using live)
  refine ⟨more.batched,fun v mem => more.entered v (first.entered v mem),?_⟩
  exact forall_mem_append.mpr ⟨fun p old => (first.sent p old).later more.entered,more.sent⟩

theorem Batched.steady (batched : Batched led i r) (steady : Steady r t) : Batched led i t := by
  refine ⟨?_,?_,?_,?_⟩
  · rw [steady.status,steady.view,steady.lastBatchEnd,steady.lastOp]
    intro normal leads
    obtain ⟨bound,views⟩ := batched.batch normal leads
    refine ⟨bound,?_⟩
    intro e mem above
    obtain ⟨f,other,same⟩ := steady.log.member mem
    rw [← same] at above ⊢
    exact views f other above
  · rw [steady.closeBatchTimeout,steady.status,steady.view,steady.lastBatchEnd,steady.lastOp]
    exact batched.closing
  · rw [steady.entered,steady.status,steady.view]
    exact batched.past
  · rw [steady.status,steady.view]
    exact fun normal => (batched.normal normal).later fun v mem => steady.entered ▸ mem

theorem Quiet.batches (quiet : Quiet i r e) (batched : Batched led i r) : Batches led i r e :=
  .plain (batched.steady quiet.steady) (fun _ mem => quiet.steady.entered ▸ mem) quiet.sent

section
variable (batched : Batched led i r)
include batched

theorem closeBatch_batches (counted : Counted r) : Batches led i r (closeBatch env i r) := by
  unfold closeBatch
  dsimp only
  split
  · exact (panic_quiet r).batches batched
  refine .plain {batched with batch := ?_, closing := by simp} (fun _ => id) (forall_toAll fun _ => trivial)
  intro _ _
  refine ⟨le_rfl,?_⟩
  intro e mem above
  exact absurd (counted.lastOp ▸ counted.wf.inside mem) (Nat.not_le_of_lt above)

theorem logged_batched (normal : r.status = .normal) (leads : env.leader r.view = i)
    (request : Request) : Batched led i (r.logged request) := by
  obtain ⟨bound,views⟩ := batched.batch normal leads
  refine {batched with batch := ?_, closing := ?_}
  · intro _ _
    refine ⟨bound.trans (Nat.le_succ _),?_⟩
    intro e mem above
    rcases mem_append.mp mem with old | new
    · exact views e old above
    · cases mem_singleton.mp new
      rfl
  · intro armed
    have ongoing := (batched.closing armed).2.2
    exact ⟨normal,leads,ongoing.trans (Nat.lt_succ_self _)⟩

theorem logRequest_batches (counted : Counted r) (normal : r.status = .normal)
    (leads : env.leader r.view = i) : Batches led i r (logRequest env i r request) := by
  have logged := logged_batched batched normal leads request
  unfold logRequest
  dsimp only
  split
  · have closed : Batches led i r (closeBatch env i (r.logged request)) :=
      .after (closeBatch_batches logged (logged_counted counted request)) (fun _ => id)
    refine closed.andThen ?_
    intro _
    exact .silent {closed.batched with} (fun _ => id)
  have waits : Batched led i {r.logged request with closeBatchTimeout := true} := by
    refine {logged with closing := fun _ => ⟨normal,leads,?_⟩}
    exact Nat.lt_succ_of_le (batched.batch normal leads).1
  refine Batches.andThen (.silent waits fun _ => id) ?_
  intro _
  exact .silent {waits with} (fun _ => id)

theorem handleRequest_batches (counted : Counted r) :
    Batches led i r (handleRequest env i r remote req) := by
  unfold handleRequest
  split
  · exact .silent batched (fun _ => id)
  rename_i normal
  rw [not_not] at normal
  split
  · exact .silent batched (fun _ => id)
  rename_i leads
  rw [not_not] at leads
  dsimp only
  split
  next answer checked =>
    exact .plain {batched with} (fun _ => id) ((clientTableAnswer_replies checked).all fun _ _ _ => trivial)
  split
  · exact .plain {batched with} (fun _ => id) (forall_mem_singleton.mpr trivial)
  · exact .after (logRequest_batches (by exact {batched with}) {counted with} normal leads) (fun _ => id)

theorem Batched.follow (follower : ¬ (r.status = .normal ∧ env.leader r.view = i)) (lastOp : Nat)
    (log : Log) : Batched led i {r with lastOp := lastOp, log := log} := by
  refine {batched with batch := ?_, closing := ?_}
  · intro normal leads
    exact (follower ⟨normal,leads⟩).elim
  · intro armed
    obtain ⟨normal,leads,_⟩ := batched.closing armed
    exact (follower ⟨normal,leads⟩).elim

theorem handlePrepare_batches (counted : Counted r) :
    Batches led i r (handlePrepare env i r remote msg) := by
  unfold handlePrepare
  split
  · exact .silent batched (fun _ => id)
  split
  · exact .silent batched (fun _ => id)
  split
  · exact (delayPrepare_quiet r remote msg).batches batched
  split
  · exact (panic_quiet r).batches batched
  rename_i follower
  dsimp only
  split
  · exact .plain {batched with} (fun _ => id) (forall_mem_singleton.mpr trivial)
  split
  · exact .after (Quiet.batches (delayPrepare_quiet _ remote msg) {batched with}) (fun _ => id)
  rename_i new reach
  obtain ⟨log,_,result,_⟩ := prepareLoop_spec (r := {r with viewChangeTimeout := true}) msg.view
    (msg.batchstart - 1) msg.request counted.wf counted.lastOp (by dsimp only; omega)
  rw [result]
  exact .plain {batched.follow (fun both => follower both.2) log.items.length log with} (fun _ => id)
    (forall_mem_singleton.mpr trivial)

theorem handleRequestStateTransfer_batches :
    Batches led i r (handleRequestStateTransfer env i r remote msg) := by
  unfold handleRequestStateTransfer
  split
  · exact .silent batched (fun _ => id)
  rename_i normal
  rw [not_not] at normal
  split
  · exact (requestStateTransfer_quiet r).batches batched
  exact ⟨batched,fun _ => id,forall_mem_singleton.mpr (batched.normal normal)⟩

theorem Batched.enter (later : r.view < view ∨ r.view = view ∧ r.status ≠ .normal) (leader : led view)
    (follower : env.leader view ≠ i) (log : Log) (old lastOp : Nat) :
    Batched led i {enterView env i {r with lastOp := old, log := log} view with lastOp := lastOp} := by
  refine ⟨?_,?_,?_,?_⟩
  · intro _ leads
    exact (follower leads).elim
  · intro armed
    simp [enterView,follower] at armed
  · intro v mem
    rcases mem_cons.mp mem with rfl | earlier
    · exact .inr ⟨rfl,rfl⟩
    refine .inl ?_
    change v < view
    rcases batched.past v earlier with _ | ⟨_,normal⟩
    · omega
    · rcases later with later | ⟨_,changing⟩
      · omega
      · exact (changing normal).elim
  · intro _
    exact .inl leader

end

theorem transferLoop_known (old : Nat) (entries : List LogEntry) (counted : Counted r)
    (known : ∀ e ∈ entries, r.lastCommitted < e.viewstamp.opnum →
      ∃ mine, r.log.find e.viewstamp.opnum = some mine ∧ mine.viewstamp.view = e.viewstamp.view) :
    transferLoop entries old r = (old,⟨r,[]⟩) := by
  induction entries with
  | nil => rfl
  | cons e rest ih =>
    have more := ih fun x mem => known x (.tail _ mem)
    unfold transferLoop
    split
    · exact more
    obtain ⟨mine,got,view⟩ := known e (.head _) (by omega)
    have bound : e.viewstamp.opnum ≤ r.lastOp := counted.lastOp ▸ Log.find_inside counted.wf got
    rw [if_pos bound,got]
    dsimp only
    rw [if_pos view]
    exact more

def NothingNew (r : Replica n σ) (entries : List LogEntry) : Prop :=
  ∀ e ∈ entries, r.lastCommitted < e.viewstamp.opnum →
    ∃ mine ∈ r.log.find e.viewstamp.opnum, mine.viewstamp.view = e.viewstamp.view

instance (r : Replica n σ) (entries : List LogEntry) : Decidable (NothingNew r entries) :=
  inferInstanceAs (Decidable (∀ e ∈ entries, _ → _))

theorem handleStateTransfer_batches (counted : Counted r) (live : r.panicked = false) (batched : Batched led i r)
    (reach : base ≤ r.lastCommitted) (places : Contiguous base msg.entries)
    (leader : led msg.view) (own : ∀ v, led v → env.leader v = i → v ∈ r.entered)
    (known : r.status = .normal → msg.view = r.view → env.leader r.view = i → NothingNew r msg.entries) :
    Batches led i r (handleStateTransfer env i r msg) := by
  by_cases stale : msg.view < r.view
  · unfold handleStateTransfer
    rw [if_pos stale]
    exact .silent batched (fun _ => id)
  obtain ⟨new,last,run,_⟩ := transferLoop_orderly r.lastOp msg.entries (counted.orderly live reach places)
  have finish : ∀ u : Replica env.config.n σ, Batched led i u → (∀ v ∈ r.entered, v ∈ u.entered) → Batches led i r
      (((commitUpTo env i u msg.opnum).andThen fun r => sendPrepareOKs env i r last).andThen fun r =>
        ⟨{r with pendingPrepares := []},[]⟩) := by
    intro u after entered
    have done := ((commitUpTo_quiet (i := i) u msg.opnum).andThen (sendPrepareOKs_quiet _ last)).batches after
    exact .after (done.andThen fun _ => .silent {done.batched with} (fun _ => id)) entered
  rw [handleStateTransfer_eq stale run live]
  unfold joinTransfer
  dsimp only
  split
  next later =>
    have follower : env.leader msg.view ≠ i := by
      intro leads
      have := batched.past _ (own _ leader leads)
      omega
    exact finish _ (batched.enter (.inl later) leader follower new _ _) fun _ mem => .tail _ mem
  next recent =>
    refine finish _ ?_ fun _ => id
    by_cases leading : r.status = .normal ∧ env.leader r.view = i
    · have same := transferLoop_known r.lastOp msg.entries counted (known leading.1 (by omega) leading.2)
      rw [run] at same
      have kept := congrArg (fun out => out.2.replica) same
      dsimp only at kept
      rw [kept]
      exact batched
    · exact batched.follow leading _ _

section
variable (batched : Batched led i r)
include batched

theorem startViewChange_batches (later : r.view < newview) :
    Batches led i r (startViewChange env i r newview) := by
  refine .plain ⟨?_,?_,?_,?_⟩ (fun _ => id) (forall_toAll fun _ => trivial)
  · intro normal; cases normal
  · intro armed; cases armed
  · intro v mem
    have := batched.past v mem
    refine .inl ?_
    change v < newview
    omega
  · intro normal; cases normal

theorem joinViewChange_batches (notBelow : ¬ view < r.view)
    (joins : ¬ (view = r.view ∧ r.status ≠ .viewChange)) : Batches led i r (joinViewChange env i r view) := by
  unfold joinViewChange
  split
  next outside =>
    exact startViewChange_batches batched (joinViewChange_later joins outside notBelow)
  · exact .silent batched (fun _ => id)

theorem collectStartViewChange_batches :
    Batches led i r (collectStartViewChange env i r msg) := by
  unfold collectStartViewChange
  dsimp only
  split
  · exact .silent {batched with} (fun _ => id)
  split
  · exact .silent {batched with} (fun _ => id)
  exact ⟨{batched with},fun _ => id,forall_mem_singleton.mpr rfl⟩

theorem handleStartViewChange_batches :
    Batches led i r (handleStartViewChange env i r msg) := by
  unfold handleStartViewChange
  split
  · exact .silent batched (fun _ => id)
  split
  · exact .silent batched (fun _ => id)
  rename_i notBelow joins
  have joined := joinViewChange_batches batched notBelow joins
  exact joined.andThen fun _ => collectStartViewChange_batches joined.batched

end

theorem startNewView_batches (counted : Counted r) (live : r.panicked = false) (batched : Batched led i r)
    (changing : r.status = .viewChange) (view : r.view = v) (leads : env.leader v = i)
    (reported : ∀ kv ∈ msgs.entries, Reported kv.2) (reads : ReadsLatest r.log.lastViewstamp msgs.entries stray)
    (same : (findLatest r.log.lastViewstamp msgs.entries).op = r.lastOp) :
    Batches led i r (startNewView env i r v msgs stray) := by
  unfold startNewView
  dsimp only
  split
  · exact (panic_quiet r).batches batched
  rename_i log installed
  obtain ⟨wf,length⟩ := installLatest_counted counted live reported reads installed
  rw [same] at length ⊢
  have entered : Batched led i {enterView env i {r with log := log} v with lastOp := r.lastOp} := by
    refine ⟨?_,?_,?_,?_⟩
    · intro _ _
      refine ⟨le_rfl,?_⟩
      intro e mem above
      exact absurd (length ▸ wf.inside mem) (Nat.not_le_of_lt above)
    · intro armed
      have ongoing : r.closeBatchTimeout = true := by
        simp only [enterView,Bool.and_eq_true] at armed
        exact armed.2
      have normal := (batched.closing ongoing).1
      rw [changing] at normal
      cases normal
    · intro w mem
      rcases mem_cons.mp mem with rfl | earlier
      · exact .inr ⟨rfl,rfl⟩
      rcases batched.past w earlier with below | ⟨_,normal⟩
      · exact .inl (view ▸ below)
      · rw [changing] at normal
        cases normal
    · intro _
      exact .inr ⟨leads,.head _⟩
  have quiet := commitLatest_quiet (i := i) {enterView env i {r with log := log} v with lastOp := r.lastOp}
    ((findLatest r.log.lastViewstamp msgs.entries).read stray)
  have committed := quiet.batches entered
  refine .after (committed.andThen ?_) fun _ mem => .tail _ mem
  intro _
  exact ⟨committed.batched,fun _ => id,forall_toAll fun _ => committed.batched.normal quiet.steady.status⟩

section
variable (i : Fin env.config.n) (r : Replica env.config.n σ) (stray : Stray env.config.n)

def BatchFits : Message env.config.n → Prop
  | .doViewChange msg => SelectionFits r stray msg (· = r.lastOp)
  | .stateTransfer msg => r.status = .normal → msg.view = r.view → r.AmLeader env i → NothingNew r msg.entries
  | .startView msg => LogReaches r stray (.startView msg)
  | _ => True

instance : DecidablePred (BatchFits i r stray) := fun msg => by
  unfold BatchFits; rcases msg with ⟨⟩ <;> infer_instance

end

theorem collectDoViewChange_batches (counted : Counted r) (live : r.panicked = false) (batched : Batched led i r)
    (changing : r.status = .viewChange) (view : r.view = msg.view) (leads : env.leader msg.view = i) (reported : Reported msg)
    (same : ∀ msgs ∈ (r.doViewChangeQuorum.addAndCheckForQuorum msg.view msg.replicaIdx msg).2,
      ReadsLatest r.log.lastViewstamp msgs.entries stray ∧ LatestEnds r.log.lastViewstamp msgs.entries (· = r.lastOp)) :
    Batches led i r (collectDoViewChange env i r msg stray) := by
  have added := counted.addChange reported
  unfold collectDoViewChange
  dsimp only [QuorumSet.addAndCheckForQuorum] at same ⊢
  split
  · exact .silent {batched with} (fun _ => id)
  next msgs quorum =>
    obtain ⟨reads,ends⟩ := same msgs quorum
    refine .after (startNewView_batches added live {batched with} changing view leads ?_ reads ends.found) fun _ => id
    exact quorum_reported added quorum

theorem handleDoViewChange_batches (counted : Counted r) (batched : Batched led i r) (leads : env.leader msg.view = i)
    (reported : Reported msg) (fits : BatchFits i r stray (.doViewChange msg)) :
    Batches led i r (handleDoViewChange env i r msg stray) := by
  unfold handleDoViewChange
  split
  · exact .silent batched (fun _ => id)
  split
  · exact .silent batched (fun _ => id)
  rename_i notBelow joins
  have ahead := Or.resolve_left fits (not_or.mpr ⟨notBelow,joins⟩)
  have joined := joinViewChange_batches batched notBelow joins
  have counts : Counts i (fun _ => 0) r (joinViewChange env i r msg.view) := joinViewChange_counts counted
  have same : Joined r (joinViewChange env i r msg.view).replica msg.view := joinViewChange_joined notBelow
  refine joined.andThen ?_
  intro alive
  refine collectDoViewChange_batches counts.counted alive joined.batched same.status same.view leads reported ?_
  rw [counts.counted.lastOp,same.changes,same.log,← counted.lastOp]
  exact ahead

theorem handleStartView_batches (batched : Batched led i r) (leader : led msg.view)
    (own : ∀ v, led v → env.leader v = i → v ∈ r.entered) : Batches led i r (handleStartView env i r msg) := by
  unfold handleStartView
  split
  · exact .silent batched (fun _ => id)
  split
  · exact .silent batched (fun _ => id)
  rename_i notBelow joins
  have later : r.view < msg.view ∨ r.view = msg.view ∧ r.status ≠ .normal := by
    rcases Nat.lt_or_ge r.view msg.view with above | below
    · exact .inl above
    have same : msg.view = r.view := by omega
    refine .inr ⟨same.symm,?_⟩
    intro normal
    exact joins ⟨same,by rw [normal]; decide⟩
  have follower : env.leader msg.view ≠ i := by
    intro leads
    rcases batched.past _ (own _ leader leads) with below | ⟨now,normal⟩
    · exact notBelow below
    · exact joins ⟨now,by rw [normal]; decide⟩
  dsimp only
  split
  · exact (panic_quiet r).batches batched
  next log _ =>
    exact .after (Quiet.batches ((commitUpTo_quiet _ _).andThen (sendPrepareOKs_quiet _ _))
      (batched.enter later leader follower log r.lastOp msg.lastOp)) fun _ mem => .tail _ mem

variable {s : System env}

theorem receiveMessage_batches (counted : Counted (s.replicas i)) (live : (s.replicas i).panicked = false)
    (batched : Batched led i (s.replicas i)) (shaped : Shaped s.floor p) (target : p.dst = .replica i)
    (told : Leads led i (s.replicas i) p) (own : ∀ v, led v ↔ v ∈ (s.replicas (env.leader v)).entered)
    (fits : BatchFits i (s.replicas i) stray p.msg) :
    Batches led i (s.replicas i) (receiveMessage env i (s.replicas i) p.src stray p.msg) := by
  unfold Shaped at shaped
  unfold Leads at told
  have mine : ∀ v, led v → env.leader v = i → v ∈ (s.replicas i).entered := by
    rintro v entered rfl
    exact (own v).mp entered
  have heard : ∀ v, LedAfter led i (s.replicas i) v → led v := by
    rintro v (entered | ⟨rfl,entered⟩)
    · exact entered
    · exact (own v).mpr entered
  cases same : p.msg with
  | request req => exact handleRequest_batches batched counted
  | unloggedRequest req => exact (handleUnloggedRequest_quiet _).batches batched
  | reply msg | unloggedReply reply clientreqid => exact (panic_quiet _).batches batched
  | prepare msg => exact handlePrepare_batches batched counted
  | prepareOK msg => exact (handlePrepareOK_quiet _).batches batched
  | commit msg => exact (handleCommit_quiet _).batches batched
  | requestStateTransfer msg => exact handleRequestStateTransfer_batches batched
  | stateTransfer msg =>
    rw [same] at shaped told fits
    obtain ⟨_,_,dst,bound,places⟩ := shaped
    rw [target] at dst; cases dst
    exact handleStateTransfer_batches counted live batched bound places (heard _ told) mine fits
  | startViewChange msg => exact handleStartViewChange_batches batched
  | doViewChange msg =>
    rw [same] at shaped told fits
    rw [target] at told
    exact handleDoViewChange_batches counted batched (Address.replica.inj told).symm shaped fits
  | startView msg =>
    rw [same] at told
    exact handleStartView_batches batched (heard _ told) mine

theorem timerFired_batches (counted : Counted r) (batched : Batched led i r) : Batches led i r (timerFired env i r timer) := by
  cases timer with
  | viewChange => exact startViewChange_batches batched (Nat.lt_succ_self _)
  | nullCommit => exact (sendNullCommit_quiet r).batches batched
  | stateTransfer => exact .silent {batched with} (fun _ => id)
  | resendPrepare => exact (resendPrepare_quiet r).batches batched
  | closeBatch => exact closeBatch_batches batched counted

def System.entered (s : System env) (view : Nat) : Prop := view ∈ (s.replicas (env.leader view)).entered

structure AllBatched (s : System env) : Prop where
  replicas : ∀ j, Batched s.entered j (s.replicas j)
  network : ∀ p ∈ s.network, ∀ j, Leads s.entered j (s.replicas j) p

theorem perform_led {e : Effect env.config.n σ} (batches : Batches s.entered i (s.replicas i) e)
    (after : s.entered view ∨ env.leader view = i ∧ view ∈ e.replica.entered) : (s.perform i e).entered view := by
  unfold System.entered System.perform
  dsimp only
  by_cases same : env.leader view = i
  · subst same
    rw [update_self]
    rcases after with entered | ⟨_,entered⟩
    · exact batches.entered view entered
    · exact entered
  · rw [update_of_ne same]
    exact after.resolve_right fun both => same both.1

theorem Leads.mono (leads : Leads led i t p) (wider : ∀ v, LedAfter led i t v → led' v) : Leads led' j u p := by
  unfold Leads at *
  split at leads
  · exact .inl (wider _ leads)
  · exact .inl (wider _ leads)
  · exact leads
  · trivial

theorem Batched.mono (batched : Batched led i r) (wider : ∀ v, LedAfter led i r v → led' v) : Batched led' i r :=
  {batched with normal := fun normal => .inl (wider _ (batched.normal normal))}

theorem AllBatched.perform (all : AllBatched s) (batches : Batches s.entered i (s.replicas i) e) :
    AllBatched (s.perform i e) := by
  have stays : ∀ j v, LedAfter s.entered j (s.replicas j) v → (s.perform i e).entered v := by
    rintro j v (entered | ⟨rfl,entered⟩)
    · exact perform_led batches (.inl entered)
    · exact perform_led batches (.inl entered)
  refine ⟨(forall_update_iff s.replicas fun j r => Batched (s.perform i e).entered j r).mpr
    ⟨batches.batched.mono fun v after => perform_led batches after,fun j _ => (all.replicas j).mono (stays j)⟩,?_⟩
  intro p mem j
  rcases mem_append.mp mem with old | new
  · exact (all.network p old i).mono (stays i)
  · exact (batches.sent p new).mono fun v after => perform_led batches after

theorem AllBatched.client (all : AllBatched s)
    (requests : ∀ p ∈ sent, Asks p) :
    AllBatched (s.clientDoes clientid c sent) := by
  refine ⟨all.replicas,?_⟩
  intro p mem j
  rcases mem_append.mp mem with old | new
  · exact all.network p old j
  unfold Leads
  rcases requests p new with ⟨_,same⟩ | ⟨_,same⟩ <;> rw [same] <;> trivial

theorem initial_batched (app : σ) : AllBatched (System.initial app : System env) := by
  refine ⟨?_,nofun⟩
  intro j
  refine ⟨?_,?_,?_,?_⟩
  · intro _ _
    exact ⟨le_rfl,by intro e mem; cases mem⟩
  · intro armed
    cases armed
  · intro v mem
    exact .inr ⟨mem_singleton.mp mem,rfl⟩
  · intro _
    exact .inl (mem_singleton_self _)

theorem BatchFits.reaches {msg : Message env.config.n} (fits : BatchFits i r stray msg) (counted : Counted r)
    (live : r.panicked = false) : LogReaches r stray msg := by
  cases msg with
  | doViewChange msg =>
    refine Or.imp_right ?_ fits
    intro same msgs quorum
    obtain ⟨reads,x,mem,ends,top⟩ := same msgs quorum
    refine ⟨reads,x,mem,?_,top⟩
    rw [ends,counted.lastOp]
    exact counted.committed live
  | startView msg => exact fits
  | _ => trivial

theorem step_batched {s t : System env} (counted : AllCounted s) (batched : AllBatched s) (done : s.step act = some t)
    (fits : act.Delivers fun j => BatchFits j (s.replicas j)) : AllCounted t ∧ AllBatched t := by
  cases step_taken done with
  | @received j stray p sent target live =>
    have here : BatchFits j (s.replicas j) stray p.msg := fits.to target
    have shaped := counted.network p sent
    have reaches := here.reaches (counted.replicas j) live
    exact ⟨counted.perform (receiveMessage_counts (counted.replicas j) live shaped target reaches),
      batched.perform (receiveMessage_batches (counted.replicas j) live (batched.replicas j) shaped target
        (batched.network p sent j) (fun _ => Iff.rfl) here)⟩
  | fired armed =>
    exact ⟨counted.perform (timerFired_counts (counted.replicas _)),
      batched.perform (timerFired_batches (counted.replicas _) (batched.replicas _))⟩
  | client requests => exact ⟨counted.client requests,batched.client requests⟩

theorem Batched.asserts (batched : Batched led i r) (counted : Counted r) (normal : r.status = .normal)
    (leads : env.leader r.view = i) (pending : r.lastBatchEnd < r.lastOp) : CloseBatchAsserts i r := by
  refine ⟨leads,pending,?_⟩
  intro k above below
  obtain ⟨place,rfl⟩ : ∃ place, k = place + 1 := ⟨k - 1,by omega⟩
  have bound : place < r.log.entries.length := by
    have := counted.lastOp
    rw [Log.items_length] at this
    omega
  have here := List.getElem?_eq_getElem bound
  have opnum := counted.wf.places _ _ here
  refine ⟨r.log.entries[place],by rw [Log.find_eq counted.wf,here],?_,by omega⟩
  exact (batched.batch normal leads).2 _ (getElem_mem bound) (by omega)

-- In runs where a new leader's log ends where the log it adopts does, a leader hears
-- nothing new of its own view, and the counters stay right.
theorem batches_right_of_fitting_logs (env : Env σ) (app : σ) (s : System env)
    (reached : Reached env app (fun s act => act.Delivers fun j => BatchFits j (s.replicas j)) s) :
    BatchesRight s := by
  have both : AllCounted s ∧ AllBatched s := by
    induction reached with
    | initial => exact ⟨initial_counted app,initial_batched app⟩
    | step _ allowed taken ih => exact step_batched ih.1 ih.2 taken allowed
  refine ⟨?_,?_,?_⟩
  · intro j normal leads
    obtain ⟨bound,views⟩ := (both.2.replicas j).batch normal leads
    exact ⟨bound,fun e member above _ => views e member above⟩
  · intro j armed
    obtain ⟨normal,leads,pending⟩ := (both.2.replicas j).closing armed
    exact (both.2.replicas j).asserts (both.1.replicas j) normal leads pending
  intro j request normal leads
  have logged := logged_batched (both.2.replicas j) normal leads request
  exact logged.asserts (logged_counted (both.1.replicas j) request) normal leads
    (Nat.lt_succ_of_le ((both.2.replicas j).batch normal leads).1)

theorem batches_right_after_handover : ∃ s : System three, BatchesRight s ∧
    (s.replicas (1 : Fin 3)).view = 1 ∧ (s.replicas (1 : Fin 3)).lastBatchEnd = 2 := by
  obtain ⟨s,reached,seen⟩ := (machine three ()).reached_of_run (fun s act => act.Delivers fun j => BatchFits j (s.replicas j))
    (fun s => (s.replicas (1 : Fin 3)).view = 1 ∧ (s.replicas (1 : Fin 3)).lastBatchEnd = 2) handover (by decide +kernel)
  exact ⟨s,batches_right_of_fitting_logs three () s reached,seen⟩

-- Replica 0 leads view 3 with its own log, which has kept "x" of view 0 under a
-- lastOp of 0: "x" is taken for part of the open batch.
def ledByStale : List (Action 3) :=
  startedEmpty ++ [.timeout 2 .viewChange,.timeout 2 .viewChange,between 2 0 (.startViewChange ⟨3,2,0⟩),
    between 0 2 (.startViewChange ⟨3,0,0⟩),between 2 0 (.doViewChange ⟨3,0,0,0,[],2⟩)]

theorem stale_entry_in_open_batch : ¬ ∀ (env : Env Unit) (s : System env), Reached env () (fun _ _ => True) s →
    BatchesRight s := by
  intro right
  obtain ⟨s,reached,normal,view,batch,lastOp,member⟩ := (machine three ()).reached_of_run (fun _ _ => True) (fun s =>
      (s.replicas (0 : Fin 3)).status = .normal ∧ (s.replicas (0 : Fin 3)).view = 3 ∧
      (s.replicas (0 : Fin 3)).lastBatchEnd = 0 ∧ (s.replicas (0 : Fin 3)).lastOp = 1 ∧
      entry 0 1 "x" 5 ∈ (s.replicas (0 : Fin 3)).log.entries) ledByStale (by decide +kernel)
  have views := ((right three s reached).batches (0 : Fin 3) normal (by rw [view]; rfl)).2
    _ member (by rw [batch]; decide) (by rw [lastOp]; decide)
  rw [view] at views
  cases views

end DbExp.Tapir.Vr
