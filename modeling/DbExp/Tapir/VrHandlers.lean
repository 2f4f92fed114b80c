import DbExp.Tapir.VrInvariant
import DbExp.Tapir.VrQuiet

namespace DbExp.Tapir.Vr
open Function List
open ViewLog

variable {env : Env σ} {rules : Rules (Nat × Request)} {a b : Views env} {i : Fin env.config.n}
  {r : Replica env.config.n σ} {floor : Fin env.config.n → Nat}

theorem andThen_live {e : Effect n σ} {next : Replica n σ → Effect n σ} (live : e.replica.panicked = false) :
    e.andThen next = ⟨(next e.replica).replica,e.sent ++ (next e.replica).sent⟩ := by
  simp [Effect.andThen,live]

theorem andThen_quiet {t : Replica n σ} {next : Replica n σ → Effect n σ} (live : t.panicked = false) :
    (⟨t,[]⟩ : Effect n σ).andThen next = next t := by
  simp [Effect.andThen,live]

theorem commitNext_holds (holds : Holds a i r) (normal : r.status = .normal) (bound : r.lastCommitted < r.log.items.length)
    (settled : Settled env.leader a r.view (r.log.items.take (r.lastCommitted + 1))) :
    Holds a i (commitNext env i r).replica ∧ (commitNext env i r).replica.lastCommitted = r.lastCommitted + 1 ∧
      (commitNext env i r).replica.panicked = r.panicked := by
  have got := Log.find_eq holds.wf r.lastCommitted
  obtain ⟨entry,here⟩ : ∃ entry, r.log.entries[r.lastCommitted]? = some entry := by
    rw [Log.items_length] at bound
    exact ⟨_,List.getElem?_eq_getElem bound⟩
  rw [here] at got
  have longer : r.log.items.take (r.lastCommitted + 1) = r.log.items.take r.lastCommitted ++ [entry.item] := by
    rw [take_add_one,Log.items,getElem?_map,here]
    rfl
  have alike := Log.setStatus_alike r.log (r.lastCommitted + 1) .committed
  unfold commitNext
  rw [got]
  obtain ⟨last,stands⟩ := holds.stands
  have current := stands.normal.mp normal
  refine ⟨{holds with
    wf := alike.wf holds.wf
    lastOp := ?_
    stands := ⟨last,?_⟩
    committed := ?_
    executed := ?_},rfl,rfl⟩
  all_goals dsimp only; rw [alike.items]
  · exact holds.lastOp
  · exact {stands with settled := current ▸ settled}
  · exact bound
  · rw [longer,numbered_snoc,← holds.executed,length_take,Nat.min_eq_left bound.le]
    rfl

section
variable (holds : Holds a i r) (normal : r.status = .normal) (live : r.panicked = false)
include holds normal live

theorem commitLoop_holds (k : Nat) (bound : r.lastCommitted + k ≤ r.log.items.length)
    (settled : Settled env.leader a r.view (r.log.items.take (r.lastCommitted + k))) :
    Holds a i (commitLoop env i k r).replica ∧ (commitLoop env i k r).replica.lastCommitted = r.lastCommitted + k := by
  induction k generalizing r with
  | zero => exact ⟨holds,rfl⟩
  | succ k ih =>
    obtain ⟨first,count,alive⟩ := commitNext_holds holds normal (by omega) (settled.shorten (take_prefix_take_left (by omega)))
    have steady := commitNext_steady (i := i) r
    obtain ⟨rest,total⟩ := ih first (steady.status.trans normal) (alive.trans live) (by rw [steady.log.items,count]; omega)
      (by rw [steady.log.items,steady.view,count,show r.lastCommitted + 1 + k = r.lastCommitted + (k+1) by omega]; exact settled)
    unfold commitLoop
    rw [andThen_live (alive.trans live)]
    exact ⟨rest,by rw [total,count]; omega⟩

theorem commitUpTo_holds (bound : upto ≤ r.log.items.length) (settled : Settled env.leader a r.view (r.log.items.take upto)) :
    Holds a i (commitUpTo env i r upto).replica ∧ (commitUpTo env i r upto).replica.lastCommitted = max r.lastCommitted upto := by
  unfold commitUpTo
  rcases Nat.le_total upto r.lastCommitted with done | more
  · rw [Nat.sub_eq_zero_of_le done,Nat.max_eq_left done]
    exact ⟨holds,rfl⟩
  have total : r.lastCommitted + (upto - r.lastCommitted) = upto := by omega
  rw [Nat.max_eq_right more]
  simpa only [total] using commitLoop_holds holds normal live (upto - r.lastCommitted) (by rwa [total]) (by rwa [total])

end

theorem sendPrepareOKsLoop_holds (ks : List Nat) (holds : Holds a i r) : Holds a i (sendPrepareOKsLoop env i ks r).replica := by
  induction ks generalizing r with
  | nil => exact holds
  | cons k rest ih =>
    have first : Holds a i (sendPrepareOK env i r k).replica := by
      unfold sendPrepareOK
      split
      · exact holds
      · split <;> exact {holds with}
    exact Effect.andThen_replica first (ih first)

-- A handler of replica `i` follows the abstract state when some moves of `i` lead
-- to one in which the replica it leaves stands again and everything it sent holds.
def Follows (rules : Rules (Nat × Request)) (i : Fin env.config.n) (floor : Fin env.config.n → Nat) (a : Views env)
    (r : Replica env.config.n σ) (e : Effect env.config.n σ) : Prop :=
  ∃ b, Moves env.leader rules i a b ∧ Holds b i e.replica ∧ r.lastCommitted ≤ e.replica.lastCommitted ∧
    ∀ p ∈ e.sent, Sent b (update floor i e.replica.lastCommitted) p

theorem Follows.stay {e : Effect env.config.n σ} (holds : Holds a i e.replica)
    (raised : r.lastCommitted ≤ e.replica.lastCommitted)
    (sent : ∀ p ∈ e.sent, Sent a (update floor i e.replica.lastCommitted) p) : Follows rules i floor a r e :=
  ⟨a,.refl,holds,raised,sent⟩

theorem Follows.silent (holds : Holds a i t) (raised : r.lastCommitted ≤ t.lastCommitted) :
    Follows rules i floor a r ⟨t,[]⟩ :=
  .stay holds raised nofun

theorem Follows.after (moved : Moves env.leader rules i a b) (raised : r.lastCommitted ≤ t.lastCommitted)
    (rest : Follows rules i floor b t e) : Follows rules i floor a r e := by
  obtain ⟨c,more,holds,further,sent⟩ := rest
  exact ⟨c,moved.trans more,holds,raised.trans further,sent⟩

theorem Follows.andThen {e : Effect env.config.n σ} {next : Replica env.config.n σ → Effect env.config.n σ}
    (first : Follows rules i floor a r e)
    (rest : ∀ b, Moves env.leader rules i a b → Holds b i e.replica → e.replica.panicked = false →
      Follows rules i floor b e.replica (next e.replica)) : Follows rules i floor a r (e.andThen next) := by
  obtain ⟨b,moved,holds,raised,sent⟩ := first
  unfold Effect.andThen
  split
  · exact ⟨b,moved,holds,raised,sent⟩
  rename_i live
  obtain ⟨c,more,after,further,later⟩ := rest b moved holds (by simpa using live)
  refine ⟨c,moved.trans more,after,raised.trans further,?_⟩
  exact forall_mem_append.mpr ⟨fun p old => (sent p old).grows more.grows (update_le_update_iff'.mpr further),later⟩

section
variable (holds : Holds a i r)
include holds

theorem panic_follows : Follows rules i floor a r r.panic :=
  .silent {holds with} le_rfl

theorem requestStateTransfer_follows : Follows rules i floor a r (requestStateTransfer env i r) := by
  unfold requestStateTransfer
  split
  · exact .silent holds le_rfl
  exact .stay {holds with} le_rfl (forall_toAll fun _ => ⟨i,rfl,by simp⟩)

theorem commitUpTo_follows (normal : r.status = .normal) (live : r.panicked = false) (bound : upto ≤ r.log.items.length)
    (settled : Settled env.leader a r.view (r.log.items.take upto)) : Follows rules i floor a r (commitUpTo env i r upto) :=
  .stay (commitUpTo_holds holds normal live bound settled).1 (commitUpTo_quiet r upto).steady.committed
    ((commitLoop_replies _ r).all fun _ _ _ => trivial)

-- A leader must have nothing left to acknowledge, or it would count itself.
theorem sendPrepareOKs_follows (old : Nat) (normal : r.status = .normal) (leads : env.leader r.view = i → r.lastOp ≤ r.lastCommitted) :
    Follows rules i floor a r (sendPrepareOKs env i r old) := by
  refine .stay (sendPrepareOKsLoop_holds _ holds) (sendPrepareOKs_quiet r old).steady.committed ?_
  intro p mem
  obtain ⟨k,_,same,new,got⟩ := sendPrepareOKsLoop_held _ r p mem
  have inside := Log.find_inside holds.wf got
  unfold Sent
  rw [same]
  refine ⟨r.log.items,?_,(holds.now normal).1,inside⟩
  intro mine
  have := leads mine.symm
  have := holds.lastOp
  omega

theorem startViewChange_follows (later : r.view < newview) :
    Follows rules i floor a r (startViewChange env i r newview) := by
  obtain ⟨last,stands⟩ := holds.stands
  have moved : Moves env.leader rules i a {a with view := update a.view i newview} :=
    moves_advance (by rw [holds.view]; exact later.le)
  refine ⟨_,moved,?_,le_rfl,forall_toAll fun _ => trivial⟩
  · have early := stands.reached
    refine {holds with
      view := by simp [startViewChange]
      stands := ⟨last,?_⟩
      acks := fun vs j msg stored => (holds.acks vs j msg stored).grows moved.grows
      changes := ?_
      prepared := holds.prepared.grows moved.grows
      closing := by simp [startViewChange]
      beating := by simp [startViewChange]}
    · refine ⟨stands.held,early.trans later.le,?_,stands.later,stands.settled.grows moved.grows⟩
      simp only [startViewChange,reduceCtorEq,false_iff]
      omega
    · intro v j msg stored
      obtain ⟨view,idx,fact⟩ := holds.changes v j msg stored
      exact ⟨view,idx,fact.grows moved.grows⟩

theorem Holds.commitFact (valid : Valid env.leader rules a) (normal : r.status = .normal) :
    CommitFact a ⟨r.view,r.lastCommitted⟩ := by
  obtain ⟨held,settled⟩ := holds.now normal
  obtain ⟨_,source,_,_,rfl⟩ := valid.between _ _ _ held
  refine ⟨_,source,holds.committed.trans (by simp),?_⟩
  rw [take_append_of_le_length holds.committed]
  exact settled

theorem sendNullCommit_follows (valid : Valid env.leader rules a) (normal : r.status = .normal) :
    Follows rules i floor a r (sendNullCommit env i r) :=
  .stay holds le_rfl (forall_toAll fun _ => holds.commitFact valid normal)

theorem resendPrepare_follows : Follows rules i floor a r (resendPrepare env i r) := by
  unfold resendPrepare
  split
  · exact .silent holds le_rfl
  exact .stay holds le_rfl (forall_toAll fun _ => holds.prepared)

theorem closeBatch_follows (normal : r.status = .normal) (leads : env.leader r.view = i) :
    Follows rules i floor a r (closeBatch env i r) := by
  unfold closeBatch
  dsimp only
  rw [holds.lastOp,Log.find_range holds.wf]
  have fact : PrepareFact a ⟨r.view,r.log.items.length,r.lastBatchEnd + 1,
      (r.log.entries.drop r.lastBatchEnd).map LogEntry.request⟩ := by
    refine ⟨r.log.items,by rw [leads]; exact (holds.now normal).1,le_rfl,?_,?_⟩
    · intro started
      simp only [length_map,length_drop,Log.items_length] at *
      omega
    intro k req here
    simp only [List.getElem?_map,List.getElem?_drop] at here
    obtain ⟨entry,place,rfl⟩ := Option.map_eq_some_iff.mp here
    exact ⟨entry.viewstamp.view,by simp [Log.items,place,LogEntry.item]⟩
  exact .stay {holds with
    lastOp := rfl
    prepared := fact
    closing := by simp} le_rfl (forall_toAll fun _ => fact)

end

theorem closeBatch_status (r : Replica env.config.n σ) : (closeBatch env i r).replica.status = r.status := by
  unfold closeBatch
  dsimp only
  split <;> rfl

theorem Holds.extend (holds : Holds a i r) (normal : r.status = .normal) (grown : Grows env.leader a b)
    (view : b.view = a.view) (held : b.held = hold a.held i r.view log.items) (wf : log.Wf)
    (longer : r.log.items <+: log.items) : Holds b i {r with lastOp := log.items.length, log := log} := by
  obtain ⟨_,stands⟩ := holds.stands
  obtain rfl := stands.normal.mp normal
  have same : log.items.take r.lastCommitted = r.log.items.take r.lastCommitted := by
    obtain ⟨_,equal⟩ := longer
    rw [← equal,take_append_of_le_length holds.committed]
  refine {holds with
    wf := wf
    view := view ▸ holds.view
    lastOp := rfl
    stands := ⟨r.view,?_⟩
    committed := holds.committed.trans longer.length_le
    executed := by rw [same]; exact holds.executed
    entered := ?_
    acks := fun vs j msg stored => (holds.acks vs j msg stored).grows grown
    changes := ?_
    prepared := holds.prepared.grows grown}
  · refine ⟨by rw [held]; simp,le_rfl,stands.normal,?_,?_⟩
    · intro w later
      rw [held,hold_other _ _ (by omega)]
      exact stands.later w later
    · rw [same]
      exact stands.settled.grows grown
  · intro w
    rw [held]
    refine (holds.entered w).trans ?_
    by_cases now : w = r.view
    · subst now; simp [stands.held]
    · rw [hold_other _ _ (fun both => now both.2)]
  · intro v j msg stored
    obtain ⟨view,idx,fact⟩ := holds.changes v j msg stored
    exact ⟨view,idx,fact.grows grown⟩

theorem logRequest_follows (stamped : rules.stamp = Prod.fst) (holds : Holds a i r) (normal : r.status = .normal)
    (leads : env.leader r.view = i) (sound : rules.Sound (r.log.items ++ [(r.view,request)])) :
    Follows rules i floor a r (logRequest env i r request) := by
  have held := (holds.now normal).1
  have moved : Moves env.leader rules i a {a with held := hold a.held i r.view (r.log.items ++ [(r.view,request)])} := by
    refine moves_hold ?_
    have step : Step env.leader rules a
        {a with held := hold a.held (env.leader r.view) r.view (r.log.items ++ [(r.view,request)])} :=
      .append (by rw [leads]; exact held) (by rw [leads]; exact holds.view) (by simp [stamped]) sound
    rwa [leads] at step
  have wf : (r.log.append ⟨r.view,r.lastOp + 1⟩ request .prepared).Wf :=
    Log.append_wf holds.wf (by rw [holds.lastOp])
  have logged := holds.extend normal moved.grows rfl (by rw [Log.append_items]) wf (by simp)
  have length : (r.log.append ⟨r.view,r.lastOp + 1⟩ request .prepared).items.length = r.lastOp + 1 := by
    simp [holds.lastOp]
  rw [length] at logged
  unfold logRequest
  dsimp only
  refine .after moved le_rfl (t := {r with
    lastOp := r.lastOp + 1
    log := r.log.append ⟨r.view,r.lastOp + 1⟩ request .prepared}) ?_
  split
  · refine (closeBatch_follows logged normal leads).andThen ?_
    intro b _ closed _
    exact .silent {closed with beating := fun _ => (closeBatch_status _).trans normal} le_rfl
  · refine Follows.andThen (.silent {logged with closing := fun _ => ⟨normal,leads⟩} le_rfl) ?_
    intro b _ closed _
    exact .silent {closed with beating := fun _ => normal} le_rfl

theorem clientTableAnswer_replies (checked : clientTableAnswer env i r remote req = some answer) : OnlyReplies answer := by
  unfold clientTableAnswer at checked
  intro p mem
  split at checked
  · cases checked
  split at checked
  · cases checked; cases mem
  split at checked
  · split at checked
    · cases checked
      cases mem_singleton.mp mem
      exact ⟨_,rfl⟩
    · cases checked; cases mem
  · cases checked

theorem handleRequest_follows (stamped : rules.stamp = Prod.fst) (holds : Holds a i r)
    (sound : r.status = .normal → env.leader r.view = i → clientTableAnswer env i r remote req = none →
      ∀ op, rules.Sound (r.log.items ++ [(r.view,⟨op,req.clientid,req.clientreqid⟩)])) :
    Follows rules i floor a r (handleRequest env i r remote req) := by
  unfold handleRequest
  split
  · exact .silent holds le_rfl
  rename_i normal
  rw [not_not] at normal
  split
  · exact .silent holds le_rfl
  rename_i leads
  rw [not_not] at leads
  dsimp only
  split
  next answer checked =>
    exact .stay {holds with} le_rfl ((clientTableAnswer_replies checked).all fun _ _ _ => trivial)
  rename_i checked
  split
  · exact .stay {holds with} le_rfl (forall_mem_singleton.mpr trivial)
  · exact .after .refl le_rfl
      (logRequest_follows stamped {holds with} normal leads (sound normal leads checked _))

theorem handleUnloggedRequest_follows (holds : Holds a i r) :
    Follows rules i floor a r (handleUnloggedRequest env i r remote req) := by
  unfold handleUnloggedRequest
  split
  · exact .silent holds le_rfl
  exact .stay {holds with} le_rfl (forall_mem_singleton.mpr trivial)

theorem prepareLoop_spec (view op : Nat) (requests : List Request) (wf : r.log.Wf) (lastOp : r.lastOp = r.log.items.length)
    (reach : op ≤ r.lastOp) :
    ∃ log table, prepareLoop view op requests r =
        {r with lastOp := log.items.length, log := log, clientTable := table} ∧
      log.Wf ∧ log.items = r.log.items ++ (requests.drop (r.lastOp - op)).map (fun req => (view,req)) := by
  induction requests generalizing r op with
  | nil =>
    refine ⟨r.log,r.clientTable,?_,wf,by simp⟩
    unfold prepareLoop
    rw [← lastOp]
  | cons req rest ih =>
    unfold prepareLoop
    split
    next old =>
      obtain ⟨log,table,same,good,items⟩ := ih (op+1) wf lastOp old
      refine ⟨log,table,same,good,?_⟩
      rw [items,show r.lastOp - op = (r.lastOp - (op+1)) + 1 by omega,drop_succ_cons]
    have place : op = r.lastOp := by omega
    subst place
    have appended : (r.log.append ⟨view,r.lastOp + 1⟩ req .prepared).Wf := Log.append_wf wf (by rw [lastOp])
    obtain ⟨log,table,same,good,items⟩ := @ih (updateClientTable {r with
        lastOp := r.lastOp + 1
        log := r.log.append ⟨view,r.lastOp + 1⟩ req .prepared} req) (r.lastOp + 1) appended
      (by simp [updateClientTable,lastOp]) le_rfl
    refine ⟨log,table,same,good,?_⟩
    rw [items]
    simp [updateClientTable]

theorem prefix_of_places {l m : List α} (all : ∀ (k : Nat) e, l[k]? = some e → m[k]? = some e) : l <+: m := by
  rw [prefix_iff_getElem?]
  intro k bound
  exact all k _ (List.getElem?_eq_getElem bound)

theorem handlePrepare_follows (stamped : rules.stamp = Prod.fst) (valid : Valid env.leader rules a) (holds : Holds a i r)
    (fact : PrepareFact a msg) : Follows rules i floor a r (handlePrepare env i r remote msg) := by
  unfold handlePrepare
  split
  · exact .silent holds le_rfl
  rename_i normal
  rw [not_not] at normal
  split
  · exact .silent holds le_rfl
  split
  · refine (requestStateTransfer_follows holds).andThen ?_
    intro b _ after _
    exact .silent {after with} le_rfl
  rename_i notBelow notAbove
  have view : msg.view = r.view := by omega
  split
  · exact panic_follows holds
  rename_i follower
  dsimp only
  obtain ⟨held,_⟩ := holds.now normal
  have ack : ∀ {b : Views env} {log : List (Nat × Request)}, b.held i r.view = some log → msg.opnum ≤ log.length →
      AckFact b msg.view msg.opnum i := by
    intro b log here enough
    refine ⟨log,?_,by rw [view]; exact here,enough⟩
    rw [view]
    exact fun same => follower same.symm
  split
  next known =>
    exact .stay {holds with} le_rfl (forall_mem_singleton.mpr (ack held (by rw [← holds.lastOp]; exact known)))
  split
  · refine (requestStateTransfer_follows (r := {r with viewChangeTimeout := true}) {holds with}).andThen ?_
    intro b _ after _
    exact .silent {after with} le_rfl
  rename_i new reach
  obtain ⟨full,of⟩ := fact
  have source := of.source
  rw [view] at source
  obtain ⟨_,same,above,below⟩ := valid.between _ _ _ held
  rw [source] at same; cases same
  have count := of.count (by omega)
  have lastOp := holds.lastOp
  obtain ⟨log,_,result,wf,items⟩ := prepareLoop_spec (r := {r with viewChangeTimeout := true}) msg.view
    (msg.batchstart - 1) msg.request holds.wf lastOp (by simp only; omega)
  have inside : log.items <+: full := by
    refine prefix_of_places ?_
    intro k e here
    rw [items] at here
    rcases Nat.lt_or_ge k r.log.items.length with old | fresh
    · rw [List.getElem?_append_left old] at here
      obtain ⟨_,rfl⟩ := below
      rwa [List.getElem?_append_left old]
    rw [List.getElem?_append_right fresh,List.getElem?_map,List.getElem?_drop] at here
    obtain ⟨req,place,rfl⟩ := Option.map_eq_some_iff.mp here
    obtain ⟨_,there⟩ := of.slice _ req place
    rw [show msg.batchstart - 1 + (r.lastOp - (msg.batchstart - 1) + (k - r.log.items.length)) = k by omega] at there
    have stamp := valid.fresh _ full source k _ (above.length_le.trans fresh) there
    rw [stamped] at stamp
    rw [there,view]
    exact congrArg (fun v => some (v,req)) stamp
  have longer : r.log.items <+: log.items := by rw [items]; exact prefix_append _ _
  have moved : Moves env.leader rules i a {a with held := hold a.held i r.view log.items} := by
    refine moves_hold (.adopt holds.view source (above.trans longer) inside ?_)
    intro old here
    rw [held] at here; cases here
    exact longer
  have extended := holds.extend normal moved.grows rfl rfl wf longer
  rw [result]
  refine ⟨_,moved,{extended with},le_rfl,forall_mem_singleton.mpr (ack (hold_same _ _ _ _) ?_)⟩
  rw [items]
  simp only [length_append,length_map,length_drop]
  omega

theorem acked_chosen (sized : env.config.n = 2 * env.config.f + 1) (held : a.held (env.leader view) view = some full)
    (q : Finset (Fin env.config.n)) (enough : env.config.f ≤ q.card)
    (acks : ∀ j ∈ q, AckFact a view opnum j) : Chosen env.leader a view (full.take opnum) := by
  refine ⟨⟨full,held, take_prefix _ _⟩,insert (env.leader view) q,?_,?_⟩
  · have outside : env.leader view ∉ q := by
      intro mem
      obtain ⟨log,ack⟩ := acks _ mem
      exact ack.follower rfl
    unfold Majority
    rw [Finset.card_insert_of_notMem outside,Fintype.card_fin]
    omega
  intro j mem
  rcases Finset.mem_insert.mp mem with rfl | follower
  · exact ⟨full,held,by simp⟩
  obtain ⟨log,ack⟩ := acks j follower
  refine ⟨log,ack.held,?_⟩
  rw [length_take]
  exact (Nat.min_le_left _ _).trans ack.enough

theorem handlePrepareOK_follows (sized : env.config.n = 2 * env.config.f + 1) (valid : Valid env.leader rules a)
    (holds : Holds a i r) (live : r.panicked = false) (fact : AckFact a msg.view msg.opnum msg.replicaIdx) :
    Follows rules i floor a r (handlePrepareOK env i r msg) := by
  unfold handlePrepareOK
  split
  · exact .silent holds le_rfl
  rename_i normal
  rw [not_not] at normal
  split
  · exact .silent holds le_rfl
  split
  · exact requestStateTransfer_follows holds
  rename_i notBelow notAbove
  have view : msg.view = r.view := by omega
  split
  · exact .silent holds le_rfl
  rename_i leading
  have leads : env.leader r.view = i := not_not.mp leading
  dsimp only [QuorumSet.addAndCheckForQuorum]
  have acks : ∀ vs j m, (r.prepareOKQuorum.add ⟨msg.view,msg.opnum⟩ msg.replicaIdx msg).Stored vs j m →
      AckFact a vs.view vs.opnum j := by
    intro vs j m stored
    rcases QuorumSet.stored_add stored with ⟨rfl,rfl,rfl⟩ | old
    · exact fact
    · exact holds.acks vs j m old
  have added : Holds a i {r with prepareOKQuorum := r.prepareOKQuorum.add ⟨msg.view,msg.opnum⟩ msg.replicaIdx msg} :=
    {holds with
      acksRequired := holds.acksRequired
      acks := acks}
  split
  · exact .silent added le_rfl
  rename_i msgs quorum
  obtain ⟨enough,stored⟩ := QuorumSet.checkForQuorum_some quorum
  obtain ⟨held,_⟩ := holds.now normal
  have bound : msg.opnum ≤ r.log.items.length := by
    obtain ⟨log,ack⟩ := fact
    obtain ⟨_,source,_,below⟩ := valid.between _ _ _ ack.held
    rw [view,leads,held] at source; cases source
    exact ack.enough.trans below.length_le
  have chosen : Chosen env.leader a r.view (r.log.items.take msg.opnum) := by
    refine acked_chosen sized (by rw [leads]; exact held) msgs.keys ?_ ?_
    · rw [OrdMap.card_keys]
      exact holds.acksRequired ▸ enough
    intro j mem
    obtain ⟨m,got⟩ := OrdMap.mem_keys.mp mem
    have := acks _ j m ((stored j m).mp got)
    rwa [view] at this
  have steady := commitUpTo_quiet (i := i) {r with
    prepareOKQuorum := r.prepareOKQuorum.add ⟨msg.view,msg.opnum⟩ msg.replicaIdx msg} msg.opnum
  have still := steady.steady.status.trans normal
  refine .andThen (commitUpTo_follows added normal live bound (.inr ⟨r.view,le_rfl,chosen⟩)) ?_
  intro b moved again _
  split
  · exact .silent again le_rfl
  · exact .stay {again with beating := fun _ => still} le_rfl (forall_toAll fun _ => again.commitFact (moved.valid valid) still)

theorem handleCommit_follows (valid : Valid env.leader rules a) (holds : Holds a i r) (live : r.panicked = false)
    (fact : CommitFact a msg) : Follows rules i floor a r (handleCommit env i r msg) := by
  unfold handleCommit
  split
  · exact .silent holds le_rfl
  rename_i normal
  rw [not_not] at normal
  split
  · exact .silent holds le_rfl
  split
  · exact requestStateTransfer_follows holds
  rename_i notBelow notAbove
  have view : msg.view = r.view := by omega
  split
  · exact panic_follows holds
  dsimp only
  split
  · exact .silent {holds with} le_rfl
  split
  · exact .after .refl le_rfl (requestStateTransfer_follows (r := {r with viewChangeTimeout := true}) {holds with})
  obtain ⟨held,_⟩ := holds.now normal
  obtain ⟨_,of⟩ := fact
  obtain ⟨_,source,_,_,rfl⟩ := valid.between _ _ _ held
  have bound : msg.opnum ≤ r.log.items.length := by rw [← holds.lastOp]; omega
  have settled := of.settled
  have same := of.source
  rw [view,source] at same; cases same
  rw [view,take_append_of_le_length bound] at settled
  exact .after .refl le_rfl (commitUpTo_follows (r := {r with viewChangeTimeout := true}) {holds with} normal live bound settled)

theorem handleRequestStateTransfer_follows (valid : Valid env.leader rules a) (holds : Holds a i r)
    (floored : floor i ≤ r.lastCommitted) (asked : ∃ j, remote = .replica j ∧ msg.opnum ≤ floor j) :
    Follows rules i floor a r (handleRequestStateTransfer env i r remote msg) := by
  unfold handleRequestStateTransfer
  split
  · exact .silent holds le_rfl
  rename_i normal
  rw [not_not] at normal
  split
  · exact requestStateTransfer_follows holds
  refine .stay holds le_rfl (forall_mem_singleton.mpr ?_)
  obtain ⟨j,rfl,known⟩ := asked
  obtain ⟨held,settled⟩ := holds.now normal
  obtain ⟨full,source,above,below⟩ := valid.between _ _ _ held
  refine ⟨j,rfl,msg.opnum,r.log.items,full,source,above,below,⟨?_,?_⟩,?_,holds.committed,settled⟩
  · rw [Log.dump_eq holds.wf,Log.items,map_drop]; rfl
  · exact Log.dump_contiguous holds.wf _
  · exact known.trans (le_update_self_iff.mpr floored j)

end DbExp.Tapir.Vr
