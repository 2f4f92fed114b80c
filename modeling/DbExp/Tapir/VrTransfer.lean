import DbExp.Tapir.VrViewChange

namespace DbExp.Tapir.Vr
open ViewLog
open List

variable {env : Env σ} {rules : Rules (Nat × Request)} {a b : Views env} {i : Fin env.config.n}
  {r : Replica env.config.n σ} {floor : Fin env.config.n → Nat}

theorem merged_take (log : List (Nat × Request)) (k : Nat) :
    (if log <+: log.take k then log.take k else log) = log := by
  split
  next inside =>
    exact (inside.eq_of_length_le (by simp)).symm
  · rfl

-- Where the loop of HandleStateTransfer stands: at place `p`, either still in the
-- committed part or with everything before `p` equal to the transferred log.
def Merging (items log : List (Nat × Request)) (committed p : Nat) : Prop :=
  (p ≤ committed ∧ committed ≤ items.length ∧ (items.take committed <+: log ∨ log <+: items.take committed)) ∨
  (committed ≤ p ∧ p ≤ items.length ∧ items.take p = log.take p)

theorem Merging.done (merging : Merging items log committed p) (finished : log.length ≤ p) : log <+: items := by
  rcases merging with ⟨_,bound,shorter | longer⟩ | ⟨_,_,same⟩
  · have length : (items.take committed).length = committed := by rw [length_take,Nat.min_eq_left bound]
    have equal := shorter.eq_of_length_le (by omega)
    rw [← equal]
    exact take_prefix _ _
  · exact longer.trans (List.take_prefix _ _)
  · rw [take_of_length_le finished] at same
    rw [← same]
    exact take_prefix _ _

theorem Merging.past (merging : Merging items log committed p) (uncommitted : committed ≤ p) (more : p < log.length) :
    p ≤ items.length ∧ items.take p = log.take p := by
  rcases merging with ⟨_,bound,shorter | longer⟩ | ⟨_,reach,same⟩
  · obtain rfl : p = committed := by omega
    exact ⟨bound,take_of_covers shorter bound le_rfl⟩
  · have := longer.length_le
    rw [length_take] at this
    omega
  · exact ⟨reach,same⟩

theorem matches_take (log : List (Nat × Request)) (k : Nat) : Matches (log.take k) log := by
  intro p x y left _ _
  have bound := (List.getElem?_eq_some_iff.mp left).1
  rw [length_take] at bound
  rw [take_take,Nat.min_eq_left (by omega)]

def Conflicts (r : Replica n σ) (e : LogEntry) : Prop :=
  r.lastCommitted < e.viewstamp.opnum ∧ ∃ old ∈ r.log.find e.viewstamp.opnum, old.viewstamp.view ≠ e.viewstamp.view

-- The loop passes over an entry, or its log then ends with it.
theorem transferLoop_step {r : Replica n σ} (rest : List LogEntry) (old : Nat) (wf : r.log.Wf) (lastOp : r.lastOp = r.log.items.length)
    (place : e.viewstamp.opnum = p + 1) (near : p ≤ r.lastOp) (committed : r.lastCommitted ≤ r.lastOp) :
    transferLoop (e :: rest) old r = transferLoop rest old r ∧ ¬ Conflicts r e ∧ p + 1 ≤ r.lastOp ∨
    ∃ log last, transferLoop (e :: rest) old r = transferLoop rest last {r with lastOp := p + 1, log := log} ∧ log.Wf ∧
      log.items = r.log.items.take p ++ [e.item] ∧ r.lastCommitted ≤ p ∧ (r.lastOp = p ∨ Conflicts r e) := by
  rw [transferLoop,place]
  by_cases early : p + 1 ≤ r.lastCommitted
  · exact .inl ⟨if_pos early,fun clash => by have := clash.1; omega,early.trans committed⟩
  rw [if_neg early]
  by_cases known : p + 1 ≤ r.lastOp
  · obtain ⟨entry,got⟩ : ∃ entry, r.log.entries[p]? = some entry := by
      rw [lastOp,Log.items_length] at known
      exact ⟨_,List.getElem?_eq_getElem known⟩
    have found : r.log.find (p+1) = some entry := by rw [Log.find_eq wf,got]
    rw [if_pos known,found]
    by_cases views : entry.viewstamp.view = e.viewstamp.view
    · refine .inl ⟨if_pos views,?_,known⟩
      rintro ⟨_,_,same,other⟩
      rw [place,found] at same
      cases same
      exact other views
    · have shorter := Log.removeAfter_items wf (Nat.succ_pos p)
      refine .inr ⟨_,_,if_neg views,Log.append_wf (Log.removeAfter_wf wf (Nat.succ_pos p)) ?_,?_,by omega,
        .inr ⟨by omega,entry,by rw [place]; exact found,views⟩⟩
      · rw [place,shorter,length_take]
        omega
      · rw [Log.append_items,shorter]
        rfl
  · rw [if_neg known]
    obtain rfl : p = r.lastOp := by omega
    refine .inr ⟨_,_,rfl,Log.append_wf wf (by omega),?_,by omega,.inl rfl⟩
    rw [Log.append_items,take_of_length_le lastOp.ge]
    rfl

theorem transferLoop_spec {log : List (Nat × Request)} (old : Nat) (entries : List LogEntry) (wf : r.log.Wf)
    (lastOp : r.lastOp = r.log.items.length) (agree : Matches r.log.items log) (carries : Carries p log entries)
    (merging : Merging r.log.items log r.lastCommitted p) :
    ∃ new last, transferLoop entries old r = (last,⟨{r with lastOp := new.items.length, log := new},[]⟩) ∧ new.Wf ∧
      new.items = if log <+: r.log.items then r.log.items else log := by
  induction entries generalizing r p old with
  | nil =>
    have finished : log.length ≤ p := by simpa using carries.items.symm
    refine ⟨r.log,old,?_,wf,by rw [if_pos (merging.done finished)]⟩
    unfold transferLoop
    rw [← lastOp]
  | cons e rest ih =>
    have place : e.viewstamp.opnum = p + 1 := carries.places.head
    have dropped := carries.items
    rw [map_cons] at dropped
    have more : p < log.length := by
      by_contra short
      rw [drop_of_length_le (by omega)] at dropped
      cases dropped
    rw [drop_eq_getElem_cons more] at dropped
    obtain ⟨item,others⟩ := List.cons.inj dropped
    have here : log[p]? = some e.item := by rw [List.getElem?_eq_getElem more,item]
    have next : Carries (p+1) log rest := ⟨others,carries.places.tail⟩
    have near : p ≤ r.lastOp ∧ r.lastCommitted ≤ r.lastOp := by rcases merging with _ | _ <;> omega
    have known (inside : p + 1 ≤ r.lastOp) : ∃ x ∈ r.log.find e.viewstamp.opnum, r.log.items[p]? = some x.item := by
      rw [lastOp,Log.items_length] at inside
      rw [place,Log.find_eq wf,Log.items,List.getElem?_map,List.getElem?_eq_getElem inside]
      exact ⟨_,rfl,rfl⟩
    rcases transferLoop_step rest old wf lastOp place near.1 near.2 with ⟨run,plain,inside⟩ | ⟨log',last,run,wf',cut,uncommitted,replaced⟩
    · rw [run]
      refine ih old wf lastOp agree next ?_
      by_cases early : p + 1 ≤ r.lastCommitted
      · rcases merging with ⟨_,rest⟩ | _
        · exact .inl ⟨early,rest⟩
        · omega
      obtain ⟨x,found,there⟩ := known inside
      have views : x.viewstamp.view = e.viewstamp.view := by_contra fun other => plain ⟨by omega,x,found,other⟩
      exact .inr ⟨by omega,by omega,agree p _ _ there here views⟩
    have differs : ¬ log <+: r.log.items := by
      intro whole
      have longer := whole.length_le
      obtain ⟨_,equal⟩ := whole
      rcases replaced with _ | ⟨_,old,found,views⟩
      · omega
      obtain ⟨x,same,there⟩ := known (by omega)
      cases Option.some.inj (found.symm.trans same)
      rw [← equal,List.getElem?_append_left more,here] at there
      exact views (congrArg Prod.fst (Option.some.inj there)).symm
    rw [(merging.past uncommitted more).2,show log.take p ++ [e.item] = log.take (p+1) by rw [take_add_one,here]; rfl] at cut
    have length : log'.items.length = p + 1 := by
      rw [cut,length_take]
      omega
    obtain ⟨new,last',rest,good,items⟩ := @ih {r with lastOp := p + 1, log := log'} (p+1) last wf' length.symm
      (by dsimp only; rw [cut]; exact matches_take log (p+1)) next
      (.inr ⟨by dsimp only; omega,length.ge,by dsimp only; rw [cut,take_take,Nat.min_self]⟩)
    refine ⟨new,last',run.trans rest,good,?_⟩
    rw [if_neg differs,items]
    rw [cut,merged_take]

theorem Carries.last (carries : Carries base log entries) (nonempty : entries ≠ []) :
    (entries.getLast?.map (fun e => e.viewstamp.opnum)) = some log.length := by
  have count := congrArg List.length carries.items
  simp only [length_map,length_drop] at count
  have positive : 0 < entries.length := length_pos_iff.mpr nonempty
  have last : entries[entries.length - 1]? = some entries[entries.length - 1] := List.getElem?_eq_getElem (by omega)
  rw [List.getLast?_eq_getElem?,last]
  have place := carries.places _ _ last
  simp only [Option.map_some,Option.some.injEq]
  omega

theorem covered_merge (wf : r.log.Wf) (lastOp : r.lastOp = r.log.items.length) (carries : Carries base log entries)
    (enough : r.lastCommitted ≤ log.length) (covers : CoversSuffix r entries) :
    (if log <+: r.log.items then r.log.items else log) = log := by
  split
  next inside =>
    refine (inside.eq_of_length_le ?_).symm
    rcases covers with short | ⟨e,mem,_,old,got,views⟩
    · by_cases nonempty : entries = []
      · subst nonempty
        simp only [List.getLast?_nil,Option.map_none,Option.getD_none] at short
        omega
      · rw [carries.last nonempty,Option.getD_some] at short
        omega
    obtain ⟨k,spot⟩ := mem_iff_getElem?.mp mem
    have place := carries.places k e spot
    rw [place,Log.find_eq wf] at got
    have mine : r.log.items[base + k]? = some old.item := by simp [Log.items,Option.mem_def.mp got]
    have theirs : log[base + k]? = some e.item := by
      have item : (entries.map LogEntry.item)[k]? = some e.item := by simp [spot]
      rwa [carries.items,List.getElem?_drop] at item
    obtain ⟨_,equal⟩ := inside
    have bound := (List.getElem?_eq_some_iff.mp theirs).1
    rw [← equal,List.getElem?_append_left bound,theirs] at mine
    exact (views (congrArg Prod.fst (Option.some.inj mine)).symm).elim
  · rfl

theorem finish_transfer (follows : Follows rules i floor a r e) :
    Follows rules i floor a r (e.andThen fun t => ⟨{t with pendingPrepares := []},[]⟩) := by
  refine follows.andThen ?_
  intro b _ holds _
  exact .silent {holds with} le_rfl

def joinTransfer (env : Env σ) (i : Fin env.config.n) (r : Replica env.config.n σ) (view : Nat) : Replica env.config.n σ :=
  if view > r.view then enterView env i r view else r

theorem handleStateTransfer_eq {t : Replica env.config.n σ} (recent : ¬ msg.view < r.view)
    (run : transferLoop msg.entries r.lastOp r = (last,⟨t,[]⟩)) (live : t.panicked = false) :
    handleStateTransfer env i r msg =
      ((commitUpTo env i (joinTransfer env i t msg.view) msg.opnum).andThen fun r =>
        sendPrepareOKs env i r last).andThen fun r => ⟨{r with pendingPrepares := []},[]⟩ := by
  unfold handleStateTransfer
  rw [if_neg recent,run]
  exact andThen_quiet live

section
variable (stamped : rules.stamp = Prod.fst) (valid : Valid env.leader rules a) (holds : Holds a i r) (live : r.panicked = false)
include stamped valid holds live

theorem transfer_sameView_follows (of : TransferOf a r.lastCommitted msg base log full) (view : msg.view = r.view)
    (normal : r.status = .normal) (leads : r.AmLeader env i → r.lastOp ≤ max r.lastCommitted msg.opnum) :
    Follows rules i floor a r (handleStateTransfer env i r msg) := by
  obtain ⟨held,_⟩ := holds.now normal
  have source := of.source
  rw [view] at source
  obtain ⟨_,same,above,below⟩ := valid.between _ _ _ held
  rw [source] at same; cases same
  have merging : Merging r.log.items log r.lastCommitted base :=
    .inl ⟨of.known,holds.committed,List.prefix_or_prefix_of_prefix ((List.take_prefix _ _).trans below) of.below⟩
  obtain ⟨new,_,run,wf,items⟩ := transferLoop_spec r.lastOp msg.entries holds.wf holds.lastOp
    (matches_held stamped valid held source of.below) of.carries merging
  have longer : r.log.items <+: new.items := by
    rw [items]
    split
    · exact prefix_rfl
    next outside =>
      exact (List.prefix_or_prefix_of_prefix of.below below).resolve_left outside
  have contains : log <+: new.items := by
    rw [items]
    split
    next inside =>
      exact inside
    · exact prefix_rfl
  have inside : new.items <+: full := by
    rw [items]
    split
    · exact below
    · exact of.below
  have moved : Moves env.leader rules i a {a with held := hold a.held i r.view new.items} := by
    refine moves_hold (.adopt holds.view source (above.trans longer) inside ?_)
    intro old here
    rw [held] at here; cases here
    exact longer
  have extended := holds.extend normal moved.grows rfl rfl wf longer
  rw [handleStateTransfer_eq (by omega) run live,joinTransfer,if_neg (by dsimp only; omega)]
  refine .after moved le_rfl (finish_transfer (commit_ack_follows extended normal live ?_ ?_ ?_))
  · exact of.bound.trans contains.length_le
  · have settled := of.settled.grows moved.grows
    have shared : log.take msg.opnum = new.items.take msg.opnum := by
      obtain ⟨_,equal⟩ := contains
      rw [← equal,take_append_of_le_length of.bound]
    rwa [view,shared] at settled
  intro leader
  have mine : full = r.log.items := by
    rw [show env.leader r.view = i from leader,held] at source
    exact (Option.some.inj source).symm
  have kept : new.items.length ≤ r.lastOp := by
    rw [holds.lastOp,← mine]; exact inside.length_le
  exact kept.trans (leads leader)

theorem transfer_laterView_follows (of : TransferOf a r.lastCommitted msg base log full) (later : r.view < msg.view)
    (covers : CoversSuffix r msg.entries) : Follows rules i floor a r (handleStateTransfer env i r msg) := by
  obtain ⟨last,stands⟩ := holds.stands
  have earlier : last < msg.view := stands.reached.trans_lt later
  have carried := (settled_start valid stands.settled earlier of.source).trans of.above
  have enough : r.lastCommitted ≤ log.length := by
    have := carried.length_le
    rwa [length_take,Nat.min_eq_left holds.committed] at this
  obtain ⟨new,_,run,wf,items⟩ := transferLoop_spec r.lastOp msg.entries holds.wf holds.lastOp
    (matches_held stamped valid stands.held of.source of.below) of.carries (.inl ⟨of.known,holds.committed,.inl carried⟩)
  rw [covered_merge holds.wf holds.lastOp of.carries enough covers] at items
  subst items
  have moved : Moves env.leader rules i a
      {a with view := Function.update a.view i msg.view, held := hold a.held i msg.view new.items} :=
    moves_adopt holds stands earlier later.le of.source of.above of.below
  have entered := holds.enter stands earlier moved.grows (by simp) (fun w => hold_at _ _ _ _ _) wf carried new.items.length
  rw [handleStateTransfer_eq (by omega) run live,joinTransfer,if_pos (by dsimp only; omega)]
  exact .after moved le_rfl (finish_transfer (commit_ack_follows entered rfl live of.bound
    (of.settled.grows moved.grows) (fun leads => (follower_of_source stands earlier of.source leads).elim)))

theorem handleStateTransfer_follows (fact : TransferFact a r.lastCommitted msg) (fits : TransferFits i r msg) :
    Follows rules i floor a r (handleStateTransfer env i r msg) := by
  obtain ⟨_,_,_,of⟩ := fact
  rcases fits with old | ⟨view,normal,leads⟩ | ⟨later,covers⟩
  · unfold handleStateTransfer
    rw [if_pos old]
    exact .silent holds le_rfl
  · exact transfer_sameView_follows stamped valid holds live of view normal leads
  · exact transfer_laterView_follows stamped valid holds live of later covers

end

end DbExp.Tapir.Vr
