import DbExp.Tapir.VrHandlers

namespace DbExp.Tapir.Vr
open Function List
open ViewLog

variable {env : Env σ} {rules : Rules (Nat × Request)} {a b : Views env} {i : Fin env.config.n}
  {r : Replica env.config.n σ} {floor : Fin env.config.n → Nat}

theorem Holds.enter (holds : Holds a i r) (stands : Stands a i r.view r.status r.log.items r.lastCommitted last)
    (earlier : last < v) (grown : Grows env.leader a b) (view : b.view i = v)
    (held : ∀ w, b.held i w = if w = v then some log.items else a.held i w) (wf : log.Wf)
    (covers : r.log.items.take r.lastCommitted <+: log.items) (k : Nat) :
    Holds b i {enterView env i {r with log := log, lastOp := k} v with lastOp := log.items.length} := by
  have length : (r.log.items.take r.lastCommitted).length = r.lastCommitted := by
    rw [length_take,Nat.min_eq_left holds.committed]
  have bound : r.lastCommitted ≤ log.items.length := length ▸ covers.length_le
  have same : log.items.take r.lastCommitted = r.log.items.take r.lastCommitted := by
    have := prefix_iff_eq_take.mp covers
    rwa [length,eq_comm] at this
  refine
    { wf := wf
      view := view
      lastOp := rfl
      stands := ⟨v,?_⟩
      committed := bound
      executed := ?_
      entered := ?_
      acksRequired := holds.acksRequired
      changesRequired := holds.changesRequired
      acks := fun vs j msg stored => (QuorumSet.not_stored_clear _ stored).elim
      changes := fun v j msg stored => (QuorumSet.not_stored_clear _ stored).elim
      prepared := holds.prepared.grows grown
      closing := ?_
      beating := fun _ => rfl }
  · refine ⟨by rw [held,if_pos rfl]; rfl,le_rfl,by simp [enterView],?_,?_⟩
    · intro w later
      rw [held,if_neg (by omega)]
      exact stands.later w (by omega)
    · change Settled env.leader b v (log.items.take r.lastCommitted)
      rw [same]
      exact (stands.settled.grows grown).later earlier.le
  · change r.executed = numbered (log.items.take r.lastCommitted)
    rw [same]
    exact holds.executed
  · intro w
    change w ∈ v :: r.entered ↔ _
    rw [held,mem_cons]
    by_cases now : w = v
    · subst now; simp
    · simp only [now,false_or,if_false]
      exact holds.entered w
  intro armed
  refine ⟨rfl,?_⟩
  simp only [enterView,Bool.and_eq_true,decide_eq_true_eq] at armed
  exact armed.1

theorem Stands.changing (stands : Stands a i view status items committed last) (changing : status = .viewChange) :
    last < view := by
  refine Nat.lt_of_le_of_ne stands.reached ?_
  intro now
  have normal := stands.normal.mpr now
  rw [changing] at normal
  cases normal

theorem join_earlier (stands : Stands a i r.view r.status items committed last) (notBelow : ¬ v < r.view)
    (joins : ¬ (v = r.view ∧ r.status ≠ .viewChange)) : last < v := by
  rcases Nat.lt_or_eq_of_le (Nat.le_of_not_lt notBelow) with _ | same
  · have early := stands.reached
    omega
  · rw [← same]
    exact stands.changing (by_contra fun other => joins ⟨same.symm,other⟩)

-- After joining, the replica is in the view and out of NORMAL; nothing else that
-- the rest of the handler reads has changed.
structure Joined (r t : Replica n σ) (v : Nat) : Prop where
  view : t.view = v
  status : t.status = .viewChange
  log : t.log = r.log
  lastCommitted : t.lastCommitted = r.lastCommitted
  changes : t.doViewChangeQuorum = r.doViewChangeQuorum
  entered : t.entered = r.entered
  panicked : t.panicked = r.panicked

theorem joinViewChange_later (joins : ¬ (v = r.view ∧ r.status ≠ .viewChange))
    (outside : r.status ≠ .viewChange ∨ v > r.view) (notBelow : ¬ v < r.view) : r.view < v := by
  rcases outside with status | above
  · have differs : v ≠ r.view := fun same => joins ⟨same,status⟩
    omega
  · exact above

theorem joinViewChange_follows (holds : Holds a i r) (notBelow : ¬ v < r.view)
    (joins : ¬ (v = r.view ∧ r.status ≠ .viewChange)) : Follows rules i floor a r (joinViewChange env i r v) := by
  unfold joinViewChange
  split
  next outside =>
    exact startViewChange_follows holds (joinViewChange_later joins outside notBelow)
  · exact .silent holds le_rfl

theorem joinViewChange_joined (notBelow : ¬ v < r.view) : Joined r (joinViewChange env i r v).replica v := by
  unfold joinViewChange
  split
  · exact ⟨rfl,rfl,rfl,rfl,rfl,rfl,rfl⟩
  next inside =>
    obtain ⟨status,_⟩ := not_or.mp inside
    exact ⟨by dsimp only; omega,not_not.mp status,rfl,rfl,rfl,rfl,rfl⟩

theorem dump_carries (wf : Log.Wf l) (k : Nat) : Carries (k - 1) l.items (l.dump k) :=
  ⟨by rw [Log.dump_eq wf,Log.items,map_drop],Log.dump_contiguous wf k⟩

theorem dump_whole (wf : Log.Wf l) (inside : k ≤ l.items.length) (none : l.dump k = []) : l.items = [] := by
  rw [Log.dump_eq wf,drop_eq_nil_iff] at none
  rw [← length_eq_zero_iff]
  rw [Log.items_length] at *
  omega

theorem Holds.doViewChangeFact (holds : Holds a i r) (changing : r.status = .viewChange) (follower : env.leader r.view ≠ i)
    (inside : least ≤ r.lastCommitted) :
    DoViewChangeFact a ⟨r.view,r.log.lastViewstamp.view,r.lastOp,r.lastCommitted,r.log.dump least,i⟩ := by
  obtain ⟨last,stands⟩ := holds.stands
  exact ⟨last,least - 1,r.log.items,
    { earlier := stands.changing changing
      left := holds.view.ge
      held := stands.held
      none := fun w later _ => stands.later w later
      follower := follower.symm
      lastOp := holds.lastOp
      lastView := by rw [Log.lastViewstamp_eq holds.wf]
      carries := dump_carries holds.wf _
      whole := dump_whole holds.wf (inside.trans holds.committed)
      bound := holds.committed
      settled := stands.settled }⟩

theorem collectStartViewChange_follows (holds : Holds a i r) (changing : r.status = .viewChange) :
    Follows rules i floor a r (collectStartViewChange env i r msg) := by
  unfold collectStartViewChange
  dsimp only
  split
  · exact .silent {holds with} le_rfl
  split
  · exact .silent {holds with} le_rfl
  rename_i follower
  exact .stay {holds with} le_rfl (forall_mem_singleton.mpr ⟨rfl,holds.doViewChangeFact changing follower (Nat.min_le_right _ _)⟩)

theorem handleStartViewChange_follows (holds : Holds a i r) :
    Follows rules i floor a r (handleStartViewChange env i r msg) := by
  unfold handleStartViewChange
  split
  · exact .silent holds le_rfl
  split
  · exact .silent holds le_rfl
  rename_i notBelow joins
  refine (joinViewChange_follows holds notBelow joins).andThen ?_
  intro b _ after _
  exact collectStartViewChange_follows after (joinViewChange_joined notBelow).status

def Matches (items log : List (Nat × Request)) : Prop :=
  ∀ (k : Nat) x y, items[k]? = some x → log[k]? = some y → x.1 = y.1 → items.take (k+1) = log.take (k+1)

theorem matches_held (stamped : rules.stamp = Prod.fst) (valid : Valid env.leader rules a)
    (here : a.held i v = some items) (there : a.held j w = some full) (below : log <+: full) : Matches items log := by
  intro k x y left right same
  obtain ⟨_,rfl⟩ := below
  have bound := (List.getElem?_eq_some_iff.mp right).1
  have agree := stamp_determines valid here there left
    (by rw [List.getElem?_append_left bound]; exact right) (by rw [stamped]; exact same)
  rwa [take_append_of_le_length bound] at agree

theorem take_of_covers {items log : List (Nat × Request)} (covers : items.take c <+: log) (enough : c ≤ items.length)
    (inside : k ≤ c) : items.take k = log.take k := by
  have length : (items.take c).length = c := by rw [length_take,Nat.min_eq_left enough]
  have whole := prefix_iff_eq_take.mp covers
  rw [length] at whole
  have shorter := congrArg (List.take k) whole
  rwa [take_take,take_take,Nat.min_eq_left inside] at shorter

theorem install_log {log : List (Nat × Request)} (wf : Log.Wf l) (committed : c ≤ l.items.length)
    (covers : l.items.take c <+: log) (agree : Matches l.items log) (carries : Carries base log entries)
    (first : entries = e :: rest) (near : e.viewstamp.opnum ≤ c + 1) :
    ((l.removeAfter (log.length + 1)).install entries).Wf ∧
      ((l.removeAfter (log.length + 1)).install entries).items = log := by
  have place : e.viewstamp.opnum = base + 1 := (first ▸ carries.places).head
  have count : entries.length = log.length - base := by
    have := congrArg List.length carries.items
    simpa using this
  have positive : 0 < entries.length := by rw [first]; simp
  have whole : base + entries.length = log.length := by omega
  have reach : base ≤ l.items.length := by omega
  have items := Log.replace_items wf carries.places reach (by
    intro k x y left right same
    rw [carries.items,List.getElem?_drop] at right
    have equal := congrArg (fun t => t[base+k]?) (agree _ _ _ left right same)
    simp only [List.getElem?_take,Nat.lt_succ_self,if_true,left,right,Option.some.injEq] at equal
    exact equal)
  rw [← whole]
  refine ⟨(Log.replace_length wf carries.places reach).1,?_⟩
  rw [items,carries.items,take_of_covers covers committed (show base ≤ c by omega)]
  exact take_append_drop base log

theorem commit_ack_follows (holds : Holds a i r) (normal : r.status = .normal) (live : r.panicked = false)
    (bound : upto ≤ r.log.items.length) (settled : Settled env.leader a r.view (r.log.items.take upto))
    (leads : env.leader r.view = i → r.lastOp ≤ max r.lastCommitted upto) :
    Follows rules i floor a r ((commitUpTo env i r upto).andThen fun t => sendPrepareOKs env i t old) := by
  have count := (commitUpTo_holds holds normal live bound settled).2
  have kept := (commitUpTo_quiet (i := i) r upto).steady
  refine .andThen (commitUpTo_follows holds normal live bound settled) ?_
  intro b _ again _
  exact sendPrepareOKs_follows again old (kept.status.trans normal) (by rw [kept.view,kept.lastOp,count]; exact leads)

theorem follower_of_source (stands : Stands a i view status items committed last) (earlier : last < v)
    (source : a.held (env.leader v) v = some full) : env.leader v ≠ i := by
  intro same
  rw [same,stands.later v earlier] at source
  cases source

theorem moves_adopt (holds : Holds a i r) (stands : Stands a i r.view r.status r.log.items r.lastCommitted last)
    (earlier : last < v) (reaches : r.view ≤ v) (source : a.held (env.leader v) v = some full)
    (above : a.start v <+: log) (below : log <+: full) :
    Moves env.leader rules i a {a with view := update a.view i v, held := hold a.held i v log} := by
  have first : Moves env.leader rules i a {a with view := update a.view i v} :=
    moves_advance (by rw [holds.view]; exact reaches)
  refine first.trans (moves_hold (.adopt (by simp) source above below ?_))
  intro old here
  rw [stands.later v earlier] at here
  cases here

theorem hold_at (held : ι → Nat → Option (List α)) [DecidableEq ι] (i : ι) (v w : Nat) (log : List α) :
    hold held i v log i w = if w = v then some log else held i w := by
  simp [hold]

theorem handleStartView_follows (stamped : rules.stamp = Prod.fst) (valid : Valid env.leader rules a) (holds : Holds a i r)
    (live : r.panicked = false) (fact : StartViewFact a msg) (empty : EmptyLogStarts r msg) :
    Follows rules i floor a r (handleStartView env i r msg) := by
  unfold handleStartView
  split
  · exact .silent holds le_rfl
  split
  · exact .silent holds le_rfl
  rename_i notBelow joins
  have emptied : msg.entries = [] → r.log.entries = [] := empty.resolve_left (not_or.mpr ⟨notBelow,joins⟩)
  obtain ⟨_,stands⟩ := holds.stands
  have earlier := join_earlier stands notBelow joins
  obtain ⟨_,full,of⟩ := fact
  have start : a.start msg.view <+: full := by
    obtain ⟨_,_,above,_⟩ := valid.between _ _ _ of.source
    exact above
  have covers := settled_start valid stands.settled earlier of.source
  dsimp only
  split
  · exact panic_follows holds
  rename_i log chosen
  -- both ways of installing end with the view's first log
  obtain ⟨wf,items⟩ : log.Wf ∧ log.items = a.start msg.view := by
    split at chosen
    next nothing =>
      cases chosen
      refine ⟨holds.wf,?_⟩
      rw [of.whole nothing,Log.items,emptied nothing]
      rfl
    next e rest first =>
      split at chosen
      · cases chosen
      rename_i near
      cases chosen
      rw [of.lastOp]
      exact install_log holds.wf holds.committed covers (matches_held stamped valid stands.held of.source start)
        of.carries first (by omega)
  have moved : Moves env.leader rules i a
      {a with view := update a.view i msg.view, held := hold a.held i msg.view log.items} :=
    moves_adopt holds stands earlier (Nat.le_of_not_lt notBelow) of.source (by rw [items]) (by rw [items]; exact start)
  have entered := holds.enter stands earlier moved.grows (by simp) (fun w => hold_at _ _ _ _ _) wf
    (by rw [items]; exact covers) r.lastOp
  have lastOp : msg.lastOp = log.items.length := by rw [of.lastOp,items]
  have settled : Settled env.leader a msg.view (log.items.take msg.lastCommitted) := by
    rw [items]; exact of.settled
  rw [lastOp]
  exact .after moved le_rfl (commit_ack_follows entered rfl live
    (show msg.lastCommitted ≤ log.items.length by rw [items]; exact of.bound)
    (settled.grows moved.grows)
    (fun leads => (follower_of_source stands earlier of.source leads).elim))

theorem NoLater.trans (one : NoLater v k w l) (two : NoLater w l x m) : NoLater v k x m := by
  unfold NoLater at *
  omega

theorem NoLater.antisymm (one : NoLater v k w l) (two : NoLater w l v k) : v = w ∧ k = l := by
  unfold NoLater at *
  omega

def Latest.OfMessage (latest : Latest n) (msg : DoViewChangeMessage n) : Prop :=
  latest.msg = some msg ∧ latest.view = msg.lastNormalView ∧ latest.op = msg.lastOp

theorem scan_spec (best : Latest n) (msgs : List (Fin n × DoViewChangeMessage n)) :
    ∃ got : Latest n, msgs.foldl (fun best kv =>
        if kv.2.lastNormalView > best.view ∨ kv.2.lastNormalView = best.view ∧ kv.2.lastOp > best.op
        then ⟨kv.2.lastNormalView,kv.2.lastOp,some kv.2⟩ else best) best = got ∧
      NoLater best.view best.op got.view got.op ∧
      (∀ kv ∈ msgs, NoLater kv.2.lastNormalView kv.2.lastOp got.view got.op) ∧
      (got = best ∨ (∃ kv ∈ msgs, got.OfMessage kv.2) ∧ ¬ NoLater got.view got.op best.view best.op) := by
  induction msgs generalizing best with
  | nil => exact ⟨best,rfl,.inr ⟨rfl,le_rfl⟩,by simp,.inl rfl⟩
  | cons kv rest ih =>
    rw [foldl_cons]
    split
    next later =>
      obtain ⟨got,run,above,all,source⟩ := ih ⟨kv.2.lastNormalView,kv.2.lastOp,some kv.2⟩
      have step : NoLater best.view best.op kv.2.lastNormalView kv.2.lastOp := by unfold NoLater; omega
      have strict : ¬ NoLater got.view got.op best.view best.op := by
        intro back
        have returns : NoLater kv.2.lastNormalView kv.2.lastOp best.view best.op := above.trans back
        unfold NoLater at returns
        omega
      refine ⟨got,run,step.trans above,?_,.inr ⟨?_,strict⟩⟩
      · intro x mem
        rcases mem_cons.mp mem with rfl | old
        · exact above
        · exact all x old
      · rcases source with rfl | ⟨⟨x,mem,of⟩,_⟩
        · exact ⟨kv,by simp,rfl,rfl,rfl⟩
        · exact ⟨x,.tail _ mem,of⟩
    next notLater =>
      obtain ⟨got,run,above,all,source⟩ := ih best
      refine ⟨got,run,above,?_,?_⟩
      · intro x mem
        rcases mem_cons.mp mem with rfl | old
        · refine NoLater.trans ?_ above
          unfold NoLater
          omega
        · exact all x old
      · rcases source with rfl | ⟨⟨x,mem,of⟩,strict⟩
        · exact .inl rfl
        · exact .inr ⟨⟨x,.tail _ mem,of⟩,strict⟩

theorem findLatest_spec (reads : ReadsLatest own msgs stray) : ∃ got, findLatest own msgs = got ∧
    NoLater own.view own.opnum got.view got.op ∧ (∀ kv ∈ msgs, NoLater kv.2.lastNormalView kv.2.lastOp got.view got.op) ∧
    (got.read stray = none ∧ got.view = own.view ∧ got.op = own.opnum ∨
      got.read stray = some stray.latest ∧ (∃ kv ∈ msgs, kv.2 = stray.latest) ∧ got.view = stray.latest.lastNormalView ∧
        got.op = stray.latest.lastOp ∧ ¬ NoLater stray.latest.lastNormalView stray.latest.lastOp own.view own.opnum) := by
  obtain ⟨got,run,above,all,source⟩ := scan_spec ⟨own.view,own.opnum,none⟩ msgs
  refine ⟨got,run,above,all,?_⟩
  rcases source with rfl | ⟨⟨kv,mem,found,view,op⟩,strict⟩
  · exact .inl ⟨rfl,rfl,rfl⟩
  rcases reads with behind | ⟨⟨held,inside,same⟩,top⟩
  · have back := behind kv mem
    rw [← view,← op] at back
    exact (strict back).elim
  have down := top kv mem
  have up := all held inside
  rw [← view,← op] at down
  rw [same] at up
  obtain ⟨views,ops⟩ := down.antisymm up
  rw [views,ops] at strict
  exact .inr ⟨by rw [Latest.read,found]; rfl,⟨held,inside,same⟩,views,ops,strict⟩

theorem LatestEnds.found (latest : LatestEnds own msgs ends) : ends (findLatest own msgs).op := by
  obtain ⟨x,mem,good,top⟩ := latest
  obtain ⟨got,run,above,all,source⟩ := scan_spec ⟨own.view,own.opnum,none⟩ msgs
  have up : NoLater x.view x.opnum got.view got.op := by
    rcases mem_cons.mp mem with rfl | sent
    · exact above
    · obtain ⟨kv,inside,rfl⟩ := mem_map.mp sent
      exact all kv inside
  have down : NoLater got.view got.op x.view x.opnum := by
    rcases source with rfl | ⟨⟨kv,inside,_,view,op⟩,_⟩
    · exact top own (.head _)
    · rw [view,op]
      exact top _ (.tail _ (mem_map.mpr ⟨kv,inside,rfl⟩))
  rw [findLatest,run,← (up.antisymm down).2]
  exact good

theorem lastNormal_eq (entered : ∀ w, w ∈ r.entered ↔ ∃ log, a.held j w = some log) (held : a.held j last = some log)
    (earlier : last < v) (none : ∀ w, last < w → w < v → a.held j w = none) : lastNormal r v = last := by
  unfold lastNormal
  have most : (r.entered.filter (· < v)).max? = some last := by
    rw [List.max?_eq_some_iff]
    refine ⟨by simpa [entered] using ⟨⟨log,held⟩,earlier⟩,?_⟩
    intro w mem
    simp only [mem_filter,decide_eq_true_eq,entered] at mem
    obtain ⟨⟨_,there⟩,below⟩ := mem
    by_contra above
    rw [none w (by omega) below] at there
    cases there
  rw [most]
  rfl

structure Backed (a : Views env) (v : Nat) (j : Fin env.config.n) (standing : Standing) (last : Nat)
    (log : List (Nat × Request)) : Prop where
  held : a.held j last = some log
  earlier : last < v
  none : ∀ w, last < w → w < v → a.held j w = none
  left : v ≤ a.view j
  normal : standing.lastNormal = last
  entry : standing.entryView = Log.lastView log
  length : standing.lastOp = log.length

theorem newest_of_ahead {q : Finset (Fin env.config.n)} (majority : Majority q)
    (all : ∀ j ∈ q, ∃ y last log, Backed a v j y last log ∧ y.Behind x)
    (mem : j ∈ q) (ahead : Backed a v j x last log) : Newest a v q last log := by
  refine ⟨majority,?_,ahead.earlier,⟨j,mem,ahead.held⟩,?_⟩
  · intro k inside
    obtain ⟨y,_,_,backed,_⟩ := all k inside
    exact backed.left
  intro k inside w below other here
  obtain ⟨y,mine,held,backed,behind⟩ := all k inside
  have order := behind.1
  rw [backed.normal,ahead.normal,backed.length,ahead.length] at order
  rcases Nat.lt_trichotomy w mine with _ | rfl | more
  · omega
  · rw [backed.held] at here; cases here
    exact order
  · rw [backed.none w more below] at here
    cases here

theorem lastView_eq {log : List (Nat × Request)} (here : log[k]? = some e) (length : log.length = k+1) :
    Log.lastView log = e.1 := by
  unfold Log.lastView
  rw [List.getLast?_eq_getElem?,length,Nat.add_sub_cancel,here]
  rfl

theorem same_of_last (stamped : rules.stamp = Prod.fst) (valid : Valid env.leader rules a)
    (here : a.held i v = some log) (there : a.held j w = some other)
    (view : Log.lastView log = Log.lastView other) (length : log.length = other.length) : log = other := by
  cases size : log.length with
  | zero =>
    have none : other.length = 0 := length ▸ size
    rw [length_eq_zero_iff.mp size,length_eq_zero_iff.mp none]
  | succ k =>
    have left : log[k]? = some log[k] := List.getElem?_eq_getElem (by omega)
    have right : other[k]? = some other[k] := List.getElem?_eq_getElem (by omega)
    rw [lastView_eq left size,lastView_eq right (length ▸ size)] at view
    have equal := stamp_determines valid here there left right (by rw [stamped]; exact view)
    rwa [take_of_length_le (by omega),take_of_length_le (by omega)] at equal

structure ViewChange (a : Views env) (i : Fin env.config.n) (r : Replica env.config.n σ) (v : Nat)
    (msgs : OrdMap (Fin env.config.n) (DoViewChangeMessage env.config.n)) (lasts : Fin env.config.n → Nat) : Prop where
  changing : r.status = .viewChange
  view : r.view = v
  leads : env.leader v = i
  enough : env.config.f ≤ msgs.size
  changes : ∀ j msg, msgs.find j = some msg → msg.view = v ∧ msg.replicaIdx = j ∧ DoViewChangeFact a msg
  lasts : ∀ j last log, a.held j last = some log → last < v → (∀ w, last < w → w < v → a.held j w = none) → lasts j = last

def standings (i : Fin n) (r : Replica n σ) (msgs : OrdMap (Fin n) (DoViewChangeMessage n)) (lasts : Fin n → Nat) :
    List Standing :=
  ⟨lasts i,r.log.lastViewstamp.view,r.log.lastViewstamp.opnum⟩ ::
    msgs.entries.map (fun kv => ⟨lasts kv.2.replicaIdx,kv.2.lastNormalView,kv.2.lastOp⟩)

variable {msgs : OrdMap (Fin env.config.n) (DoViewChangeMessage env.config.n)} {lasts : Fin env.config.n → Nat}

section
variable (change : ViewChange a i r v msgs lasts)
include change

theorem ViewChange.own (holds : Holds a i r)
    (stands : Stands a i r.view r.status r.log.items r.lastCommitted last) :
    Backed a v i ⟨lasts i,r.log.lastViewstamp.view,r.log.lastViewstamp.opnum⟩ last r.log.items := by
  have earlier : last < v := change.view ▸ stands.changing change.changing
  refine ⟨stands.held,earlier,fun w later _ => stands.later w later,(holds.view.trans change.view).ge,?_,?_,?_⟩
  · exact change.lasts i last _ stands.held earlier (fun w later _ => stands.later w later)
  · rw [Log.lastViewstamp_eq holds.wf]
  · rw [Log.lastViewstamp_eq holds.wf]

theorem ViewChange.sent (got : msgs.find j = some msg)
    (of : DoViewChangeOf a msg last base log) :
    Backed a v j ⟨lasts msg.replicaIdx,msg.lastNormalView,msg.lastOp⟩ last log := by
  obtain ⟨rfl,rfl,_⟩ := change.changes j msg got
  exact ⟨of.held,of.earlier,of.none,of.left,change.lasts _ last log of.held of.earlier of.none,of.lastView,of.lastOp⟩

theorem ViewChange.majority (sized : env.config.n = 2 * env.config.f + 1) :
    Majority (insert i msgs.keys) := by
  have outside : i ∉ msgs.keys := by
    intro mem
    obtain ⟨msg,got⟩ := OrdMap.mem_keys.mp mem
    obtain ⟨rfl,rfl,_,_,_,of⟩ := change.changes i msg got
    exact of.follower change.leads.symm
  have enough := change.enough
  unfold Majority
  rw [Finset.card_insert_of_notMem outside,OrdMap.card_keys,Fintype.card_fin]
  omega

theorem ViewChange.backed (holds : Holds a i r) :
    (∀ y ∈ standings i r msgs lasts, ∃ j ∈ insert i msgs.keys, ∃ last log, Backed a v j y last log) ∧
    ∀ j ∈ insert i msgs.keys, ∃ y ∈ standings i r msgs lasts, ∃ last log, Backed a v j y last log := by
  obtain ⟨last,stands⟩ := holds.stands
  constructor
  · intro y mem
    rcases mem_cons.mp mem with rfl | sent
    · exact ⟨i,by simp,last,_,change.own holds stands⟩
    obtain ⟨⟨j,msg⟩,inside,rfl⟩ := mem_map.mp sent
    have got := OrdMap.mem_entries.mp inside
    obtain ⟨_,_,last,base,log,of⟩ := change.changes j msg got
    exact ⟨j,Finset.mem_insert_of_mem (OrdMap.mem_keys.mpr ⟨msg,got⟩),last,log,change.sent got of⟩
  intro j mem
  rcases Finset.mem_insert.mp mem with rfl | sender
  · exact ⟨_,by simp [standings],last,_,change.own holds stands⟩
  obtain ⟨msg,got⟩ := OrdMap.mem_keys.mp sender
  obtain ⟨_,_,last,base,log,of⟩ := change.changes j msg got
  refine ⟨_,?_,last,log,change.sent got of⟩
  exact .tail _ (mem_map.mpr ⟨(j,msg),OrdMap.mem_entries.mpr got,rfl⟩)

end

structure Selected (a : Views env) (r : Replica env.config.n σ) (v op : Nat) (read : Option (DoViewChangeMessage env.config.n))
    (log : List (Nat × Request)) : Prop where
  op : op = log.length
  own : read = none → r.log.items = log
  sent : ∀ msg, read = some msg → msg.entries ≠ [] ∧ ∃ last base, last < v ∧ DoViewChangeOf a msg last base log

theorem ViewChange.selected (change : ViewChange a i r v msgs lasts) (stamped : rules.stamp = Prod.fst)
    (valid : Valid env.leader rules a) (holds : Holds a i r) (inside : x ∈ standings i r msgs lasts)
    (front : ∀ y ∈ standings i r msgs lasts, y.Behind x) (ahead : Backed a v j x last log)
    (reads : ReadsLatest r.log.lastViewstamp msgs.entries stray) :
    Selected a r v (findLatest r.log.lastViewstamp msgs.entries).op
      ((findLatest r.log.lastViewstamp msgs.entries).read stray) log := by
  obtain ⟨mine,stands⟩ := holds.stands
  have own := change.own holds stands
  obtain ⟨got,run,above,all,source⟩ := findLatest_spec reads
  have reaches : NoLater x.entryView x.lastOp got.view got.op := by
    rcases mem_cons.mp inside with rfl | sent
    · exact above
    · obtain ⟨kv,mem,rfl⟩ := mem_map.mp sent
      exact all kv mem
  -- a standing whose viewstamp was found has the log that is ahead
  have equal : ∀ {k y mine held}, y ∈ standings i r msgs lasts → Backed a v k y mine held → got.view = y.entryView →
      got.op = y.lastOp → held = log := by
    intro k y mine held mem backed view op
    have order : NoLater got.view got.op x.entryView x.lastOp := by
      rw [view,op]; exact (front y mem).2
    obtain ⟨views,ops⟩ := order.antisymm reaches
    refine same_of_last stamped valid backed.held ahead.held ?_ ?_
    · rw [← backed.entry,← ahead.entry,← view,views]
    · rw [← backed.length,← ahead.length,← op,ops]
  rw [run]
  rcases source with ⟨null,view,op⟩ | ⟨read,⟨⟨k,msg⟩,mem,same⟩,view,op,strict⟩
  · rw [null]
    have same := equal (.head _) own view op
    exact ⟨by rw [op,← same]; exact own.length,fun _ => same,nofun⟩
  rw [read]
  rw [← same] at view op strict ⊢
  have stored := OrdMap.mem_entries.mp mem
  obtain ⟨rfl,_,last,base,held,of⟩ := change.changes k msg stored
  obtain rfl := equal (.tail _ (mem_map.mpr ⟨_,mem,rfl⟩)) (change.sent stored of) view op
  refine ⟨op.trans of.lastOp,nofun,?_⟩
  rintro _ ⟨⟩
  refine ⟨?_,last,base,of.earlier,of⟩
  intro nothing
  have empty := of.whole nothing
  refine strict ?_
  rw [of.lastView,of.lastOp,empty]
  simp [NoLater,Log.lastView]
  omega

theorem installLatest_log (stamped : rules.stamp = Prod.fst) (valid : Valid env.leader rules a) (holds : Holds a i r)
    (selected : Selected a r v op source log) (covers : r.log.items.take r.lastCommitted <+: log)
    (installed : installLatest r source = some new) : new.Wf ∧ new.items = log := by
  obtain ⟨_,stands⟩ := holds.stands
  cases source with
  | none =>
    cases installed
    exact ⟨holds.wf,selected.own rfl⟩
  | some msg =>
    obtain ⟨nonempty,_,_,_,of⟩ := selected.sent msg rfl
    unfold installLatest at installed
    dsimp only at installed
    split at installed
    next nothing =>
      exact (nonempty nothing).elim
    rename_i e rest first
    split at installed
    · cases installed
    rename_i near
    cases installed
    rw [of.lastOp]
    exact install_log holds.wf holds.committed covers
      (matches_held stamped valid stands.held of.held prefix_rfl) of.carries first (by omega)

theorem startViewFact_of_entered (holds : Holds a i r) (normal : r.status = .normal) (leads : env.leader r.view = i)
    (start : a.start r.view = r.log.items) (inside : k ≤ r.log.items.length) :
    StartViewFact a ⟨r.view,r.lastOp,r.lastCommitted,r.log.dump k⟩ := by
  obtain ⟨held,settled⟩ := holds.now normal
  refine ⟨k - 1,r.log.items,?_,?_,?_,?_,?_,?_⟩
  · rw [leads]; exact held
  all_goals dsimp only; rw [start]
  · exact holds.lastOp
  · exact dump_carries holds.wf k
  · exact dump_whole holds.wf inside
  · exact holds.committed
  · exact settled

theorem announce_follows (holds : Holds a i r) (normal : r.status = .normal) (live : r.panicked = false)
    (leads : env.leader r.view = i) (start : a.start r.view = r.log.items) (inside : least ≤ r.log.items.length)
    (latest : Option (DoViewChangeMessage env.config.n))
    (settled : ∀ msg, latest = some msg → msg.lastCommitted ≤ r.log.items.length ∧
      Settled env.leader a r.view (r.log.items.take msg.lastCommitted)) :
    Follows rules i floor a r ((commitLatest env i r latest).andThen fun r =>
      ⟨r,toAll env i (.startView ⟨r.view,r.lastOp,r.lastCommitted,r.log.dump least⟩)⟩) := by
  obtain ⟨follows,after⟩ : Follows rules i floor a r (commitLatest env i r latest) ∧ Holds a i (commitLatest env i r latest).replica := by
    cases latest with
    | none => exact ⟨.silent holds le_rfl,holds⟩
    | some msg =>
      obtain ⟨bound,chosen⟩ := settled msg rfl
      exact ⟨commitUpTo_follows holds normal live bound chosen,(commitUpTo_holds holds normal live bound chosen).1⟩
  have kept := (commitLatest_quiet (i := i) r latest).steady
  refine follows.andThen ?_
  intro b moved again _
  have fact := startViewFact_of_entered (k := least) after (kept.status.trans normal) (by rw [kept.view]; exact leads)
    (by rw [kept.view,kept.log.items]; exact start) (by rw [kept.log.items]; exact inside)
  exact .stay again le_rfl (forall_toAll fun _ => fact.grows moved.grows)

theorem startNewView_follows (stamped : rules.stamp = Prod.fst) (sized : env.config.n = 2 * env.config.f + 1)
    (valid : Valid env.leader rules a) (holds : Holds a i r) (live : r.panicked = false)
    (change : ViewChange a i r v msgs lasts) (reads : ReadsLatest r.log.lastViewstamp msgs.entries stray)
    (ahead : ∃ x ∈ standings i r msgs lasts, ∀ y ∈ standings i r msgs lasts, y.Behind x) :
    Follows rules i floor a r (startNewView env i r v msgs stray) := by
  obtain ⟨x,inside,front⟩ := ahead
  obtain ⟨_,mem,last,log,backed⟩ := (change.backed holds).1 x inside
  have selected := change.selected stamped valid holds inside front backed reads
  have newest : Newest a v (insert i msgs.keys) last log := by
    refine newest_of_ahead (change.majority sized) ?_ mem backed
    intro k sender
    obtain ⟨y,standing,mine,held,backs⟩ := (change.backed holds).2 k sender
    exact ⟨y,mine,held,backs,front y standing⟩
  obtain ⟨mine,stands⟩ := holds.stands
  have earlier : mine < v := change.view ▸ stands.changing change.changing
  have moved : Moves env.leader rules i a
      {a with held := hold a.held i v log, start := update a.start v log} := by
    refine moves_hold ?_
    have step : Step env.leader rules a
        {a with held := hold a.held (env.leader v) v log, start := update a.start v log} :=
      .begin (by rw [change.leads]; exact holds.view.trans change.view)
        (by rw [change.leads]; exact stands.later v earlier) newest
    rwa [change.leads] at step
  have covers : r.log.items.take r.lastCommitted <+: log := by
    have carried := settled_start (moved.valid valid) (stands.settled.grows moved.grows) earlier
      (show hold a.held i v log (env.leader v) v = some log by rw [change.leads]; exact hold_same _ _ _ _)
    simpa using carried
  unfold startNewView
  dsimp only
  split
  · exact panic_follows holds
  rename_i new installed
  obtain ⟨wf,rfl⟩ := installLatest_log stamped valid holds selected covers installed
  have entered := holds.enter stands earlier moved.grows (holds.view.trans change.view) (fun w => hold_at _ _ _ _ _) wf
    covers r.lastOp
  rw [selected.op]
  refine .after moved le_rfl (announce_follows entered rfl live change.leads (by simp [enterView]) ?_ _ ?_)
  · exact (Nat.min_le_right _ _).trans entered.committed
  · intro msg source
    obtain ⟨_,last,_,before,of⟩ := selected.sent msg source
    exact ⟨of.bound,(of.settled.grows moved.grows).later before.le⟩

theorem collectDoViewChange_follows (lasts : Fin env.config.n → Nat) (stamped : rules.stamp = Prod.fst)
    (sized : env.config.n = 2 * env.config.f + 1) (valid : Valid env.leader rules a) (holds : Holds a i r) (live : r.panicked = false)
    (changing : r.status = .viewChange) (view : r.view = msg.view) (leads : env.leader msg.view = i)
    (fact : DoViewChangeFact a msg)
    (truth : ∀ j last log, a.held j last = some log → last < msg.view →
      (∀ w, last < w → w < msg.view → a.held j w = none) → lasts j = last)
    (ahead : ∀ msgs ∈ (r.doViewChangeQuorum.addAndCheckForQuorum msg.view msg.replicaIdx msg).2,
      ReadsLatest r.log.lastViewstamp msgs.entries stray ∧
      ∃ x ∈ standings i r msgs lasts, ∀ y ∈ standings i r msgs lasts, y.Behind x) :
    Follows rules i floor a r (collectDoViewChange env i r msg stray) := by
  have changes : ∀ v j m, (r.doViewChangeQuorum.add msg.view msg.replicaIdx msg).Stored v j m →
      m.view = v ∧ m.replicaIdx = j ∧ DoViewChangeFact a m := by
    intro v j m stored
    rcases QuorumSet.stored_add stored with ⟨rfl,rfl,rfl⟩ | old
    · exact ⟨rfl,rfl,fact⟩
    · exact holds.changes v j m old
  have added : Holds a i {r with doViewChangeQuorum := r.doViewChangeQuorum.add msg.view msg.replicaIdx msg} :=
    {holds with
      changesRequired := holds.changesRequired
      changes := changes}
  unfold collectDoViewChange
  dsimp only [QuorumSet.addAndCheckForQuorum] at ahead ⊢
  split
  · exact .silent added le_rfl
  rename_i msgs quorum
  obtain ⟨enough,stored⟩ := QuorumSet.checkForQuorum_some quorum
  have change : ViewChange a i {r with doViewChangeQuorum := r.doViewChangeQuorum.add msg.view msg.replicaIdx msg}
      msg.view msgs lasts :=
    { changing := changing
      view := view
      leads := leads
      enough := holds.changesRequired ▸ enough
      changes := fun j m got => changes _ j m ((stored j m).mp got)
      lasts := truth }
  obtain ⟨reads,front⟩ := ahead msgs quorum
  exact .after .refl le_rfl (startNewView_follows stamped sized valid added live change reads front)

theorem handleDoViewChange_follows {s : System env} (stamped : rules.stamp = Prod.fst)
    (sized : env.config.n = 2 * env.config.f + 1) (valid : Valid env.leader rules a)
    (all : ∀ j, Holds a j (s.replicas j)) (live : (s.replicas i).panicked = false) (leads : env.leader msg.view = i)
    (fact : DoViewChangeFact a msg) (selected : LatestLogSelected s i stray msg) :
    Follows rules i floor a (s.replicas i) (handleDoViewChange env i (s.replicas i) msg stray) := by
  unfold handleDoViewChange
  split
  · exact .silent (all i) le_rfl
  split
  · exact .silent (all i) le_rfl
  rename_i notBelow joins
  have ahead := selected.resolve_left (not_or.mpr ⟨notBelow,joins⟩)
  refine (joinViewChange_follows (all i) notBelow joins).andThen ?_
  intro b moved holds alive
  have joined : Joined (s.replicas i) (joinViewChange env i (s.replicas i) msg.view).replica msg.view :=
    joinViewChange_joined notBelow
  generalize (joinViewChange env i (s.replicas i) msg.view).replica = t at *
  refine collectDoViewChange_follows (fun j => lastNormal (s.replicas j) msg.view) stamped sized
    (moved.valid valid) holds alive joined.status joined.view leads (fact.grows moved.grows) ?_ ?_
  · intro j last log held earlier none
    refine lastNormal_eq (a := b) ?_ held earlier none
    intro w
    by_cases same : j = i
    · subst same
      rw [← joined.entered]
      exact holds.entered w
    · rw [(moved.others j same).2]
      exact (all j).entered w
  intro msgs quorum
  rw [joined.changes] at quorum
  have views : ∀ kv ∈ msgs.entries, kv.2.view = msg.view := by
    intro kv mem
    obtain ⟨_,stored⟩ := QuorumSet.checkForQuorum_some quorum
    rcases QuorumSet.stored_add ((stored kv.1 kv.2).mp (OrdMap.mem_entries.mp mem)) with ⟨_,_,same⟩ | old
    · rw [same]
    · exact ((all i).changes _ _ _ old).1
  have same : standings i t msgs (fun j => lastNormal (s.replicas j) msg.view) =
      ownStanding (s.replicas i) msg.view :: msgs.entries.map (fun kv => sentStanding s kv.2) := by
    unfold standings ownStanding
    rw [joined.log]
    congr 1
    refine map_congr_left ?_
    intro kv mem
    rw [sentStanding,views kv mem]
  rw [same,joined.log]
  exact ahead msgs quorum

end DbExp.Tapir.Vr
