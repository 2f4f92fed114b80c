import DbExp.Tapir.VrBuffered

namespace DbExp.Tapir.Vr
open ViewLog
open List

variable {env : Env σ} {rules : Rules (Nat × Request)} {a b : Views env} {i : Fin env.config.n}
  {r : Replica env.config.n σ} {s u : System env}

abbrev Continues (allow : System env → Action env.config.n → Prop) (s : System env) : System env → Prop :=
  Machine.Reached ⟨s,System.step⟩ allow

theorem continues_related {allow : System env → Action env.config.n → Prop} (stamped : rules.stamp = Prod.fst)
    (sized : env.config.n = 2 * env.config.f + 1)
    (guards : ∀ s a act, Related rules s a → allow s act → act.Delivers (Guarded rules s))
    (related : Related rules s a) (path : Continues allow s u) : ∃ b, Related rules u b ∧ Onward s a u b := by
  induction path with
  | initial => exact ⟨a,related,.refl,fun _ => le_rfl⟩
  | step _ allowed taken ih =>
    obtain ⟨b,middle,early⟩ := ih
    obtain ⟨c,after,late⟩ := step_related stamped sized middle taken (guards _ b _ middle allowed)
    exact ⟨c,after,early.grows.trans late.grows,fun j => (early.raised j).trans (late.raised j)⟩

theorem answer_transferOf (related : Related rules s a)
    (requested : ⟨.replica i,.replica j,.requestStateTransfer asked⟩ ∈ s.network)
    (answered : ⟨.replica j,.replica i,.stateTransfer msg⟩ ∈
      (handleRequestStateTransfer env j (s.replicas j) (.replica i) asked).sent) :
    ∃ full, TransferOf a (s.floor i) msg asked.opnum (s.replicas j).log.items full := by
  have holds := related.replicas j
  obtain ⟨k,src,known⟩ : ∃ k, Address.replica i = .replica k ∧ asked.opnum ≤ s.floor k := related.network _ requested
  cases src
  unfold handleRequestStateTransfer at answered
  split at answered
  · cases answered
  rename_i normal
  rw [not_not] at normal
  split at answered
  · have plain : Ordinary j _ _ := (requestStateTransfer_quiet (s.replicas j)).sent _ answered
    exact plain.elim
  cases mem_singleton.mp answered
  obtain ⟨held,settled⟩ := holds.now normal
  obtain ⟨full,source,above,below⟩ := related.valid.between _ _ _ held
  exact ⟨full,source,above,below,dump_carries holds.wf (asked.opnum + 1),known,holds.committed,settled⟩

-- What is promised of a transfer from a replica whose log is `sender`: the receiver
-- holds nothing that `sender` does not, and acknowledges only operations of it.
structure TransferRight (sender : Log) (view : Nat) (e : Effect n σ) : Prop where
  agrees : ∀ k x, e.replica.log.find k = some x → ∃ y, sender.find k = some y ∧ y.item = x.item
  acks : ∀ p ∈ e.sent, ∀ m, p.msg = .prepareOK m → m.view = view ∧ ∃ y, sender.find m.opnum = some y

theorem finished_transfer (u : Replica env.config.n σ) (upto last : Nat) :
    let e := ((commitUpTo env i u upto).andThen fun r => sendPrepareOKs env i r last).andThen fun r =>
      ⟨{r with pendingPrepares := []},[]⟩
    e.replica.log.Alike u.log ∧ ∀ p ∈ e.sent, ∀ m, p.msg = .prepareOK m → m.view = u.view ∧ ∃ x, u.log.find m.opnum = some x := by
  intro e
  have committed := commitUpTo_quiet (i := i) u upto
  have acked := sendPrepareOKs_quiet (i := i) (commitUpTo env i u upto).replica last
  have kept := forget_prepares ((commitUpTo env i u upto).andThen fun r => sendPrepareOKs env i r last)
  refine ⟨(Log.Alike.of_eq kept.2.2).trans (committed.andThen acked).steady.log,?_⟩
  refine Effect.andThen_sent (Effect.andThen_sent ?_ ?_) nofun
  · intro p mem m same
    obtain ⟨_,other⟩ := commitLoop_replies _ u p mem
    rw [same] at other
    cases other
  · intro p mem m same
    obtain ⟨_,x,other,_,got⟩ := AcksHeld.before (sendPrepareOKsLoop_held _ _) committed.steady p mem
    rw [same] at other
    cases other
    exact ⟨rfl,x,got⟩

theorem find_agrees_iff (mine : Log.Wf l) (theirs : Log.Wf m) :
    (∀ k x, l.find k = some x → ∃ y, m.find k = some y ∧ y.item = x.item) ↔ l.items <+: m.items := by
  constructor
  · intro agrees
    refine prefix_of_places ?_
    intro k e here
    rw [Log.items,List.getElem?_map] at here
    obtain ⟨x,place,rfl⟩ := Option.map_eq_some_iff.mp here
    obtain ⟨y,there,same⟩ := agrees (k+1) x (by rw [Log.find_eq mine]; exact place)
    rw [Log.find_eq theirs] at there
    simp [Log.items,there,same]
  rintro inside k x here
  cases k with
  | zero => rw [Log.find_zero mine] at here; cases here
  | succ k =>
    rw [Log.find_eq mine] at here
    have item : l.items[k]? = some x.item := by simp [Log.items,here]
    obtain ⟨_,equal⟩ := inside
    have bound := (List.getElem?_eq_some_iff.mp item).1
    have there : m.items[k]? = some x.item := by rw [← equal,List.getElem?_append_left bound]; exact item
    rw [Log.items,List.getElem?_map] at there
    obtain ⟨y,place,same⟩ := Option.map_eq_some_iff.mp there
    exact ⟨y,by rw [Log.find_eq theirs]; exact place,same⟩

theorem differing_place {items log : List (Nat × Request)} (shorter : log.length ≤ items.length) (differs : ¬ log <+: items) :
    ∃ (k : Nat) (x y : Nat × Request), items[k]? = some x ∧ log[k]? = some y ∧ x ≠ y := by
  by_contra none
  refine differs (prefix_of_places ?_)
  intro k y there
  have bound : k < items.length := (List.getElem?_eq_some_iff.mp there).1.trans_le shorter
  have here := List.getElem?_eq_getElem bound
  by_contra other
  exact none ⟨k,_,y,here,there,fun same => other (same ▸ here)⟩

theorem covers_of_merge (wf : r.log.Wf) (lastOp : r.lastOp = r.log.items.length) (agree : Matches r.log.items log)
    (carries : Carries base log entries) (known : base ≤ r.lastCommitted) (carried : r.log.items.take r.lastCommitted <+: log)
    (committed : r.lastCommitted ≤ r.log.items.length)
    (merged : (if log <+: r.log.items then r.log.items else log) <+: log) : CoversSuffix r entries := by
  have ends : log.length ≤ (entries.getLast?.map (fun e => e.viewstamp.opnum)).getD r.lastCommitted := by
    by_cases nothing : entries = []
    · have dropped := carries.items
      rw [nothing,map_nil,eq_comm,drop_eq_nil_iff] at dropped
      rw [nothing]
      exact dropped.trans known
    · rw [carries.last nothing]
      exact le_rfl
  by_cases short : r.log.items.length ≤ log.length
  · exact .inl (by rw [lastOp]; exact short.trans ends)
  have differs : ¬ log <+: r.log.items := by
    intro inside
    rw [if_pos inside] at merged
    exact short merged.length_le
  obtain ⟨k,_,y,here,there,other⟩ := differing_place (by omega) differs
  have beyond : r.lastCommitted ≤ k := by
    by_contra inside
    obtain ⟨_,equal⟩ := carried
    have bound : k < (r.log.items.take r.lastCommitted).length := by rw [length_take]; omega
    rw [← equal,List.getElem?_append_left bound,List.getElem?_take_of_lt (by omega),here] at there
    exact other (Option.some.inj there)
  have item : (entries.map LogEntry.item)[k - base]? = some y := by
    rw [carries.items,List.getElem?_drop,show base + (k - base) = k by omega]
    exact there
  rw [List.getElem?_map] at item
  obtain ⟨e,place,rfl⟩ := Option.map_eq_some_iff.mp item
  have opnum := carries.places _ _ place
  rw [Log.items,List.getElem?_map] at here
  obtain ⟨old,mine,rfl⟩ := Option.map_eq_some_iff.mp here
  refine .inr ⟨e,mem_of_getElem? place,by omega,old,?_,?_⟩
  · rw [show e.viewstamp.opnum = k + 1 by omega,Log.find_eq wf]
    exact mine
  intro views
  have same := agree k old.item e.item (by rw [Log.items,List.getElem?_map,mine]; rfl) there views
  have left : (r.log.items.take (k+1))[k]? = some old.item := by
    rw [List.getElem?_take_of_lt (Nat.lt_succ_self k),Log.items,List.getElem?_map,mine]; rfl
  rw [same,List.getElem?_take_of_lt (Nat.lt_succ_self k),there] at left
  exact other (Option.some.inj left).symm

def LogsFit (s : System env) (i : Fin env.config.n) (stray : Stray env.config.n) : Message env.config.n → Prop
  | .stateTransfer msg => TransferFits i (s.replicas i) msg
  | msg => ViewChangeFits s i stray msg

instance (s : System env) (i : Fin env.config.n) (stray : Stray env.config.n) : DecidablePred (LogsFit s i stray) := fun msg => by
  unfold LogsFit; rcases msg with ⟨⟩ <;> infer_instance

theorem logsFit_guarded {act : Action env.config.n} (fits : act.Delivers (LogsFit s)) : act.Delivers (Guarded anyLog s) := by
  refine fits.mono ?_
  intro j _ msg fit
  refine ⟨?_,?_,fun _ _ _ _ _ _ _ => trivial⟩
  · cases msg with
    | doViewChange | startView => exact fit
    | _ => trivial
  · rintro _ rfl
    exact fit

-- A transfer into a later view, between a reply made in `s` and its delivery in `u`,
-- leaves no stale suffix exactly when the entries cover the receiver's.
theorem transfer_right_iff_covers (env : Env σ) (app : σ) (s u : System env) (i j : Fin env.config.n)
    (asked : RequestStateTransferMessage) (msg : StateTransferMessage) (sized : env.config.n = 2 * env.config.f + 1)
    (reached : Reached env app (fun s act => act.Delivers (LogsFit s)) s)
    (requested : ⟨.replica i,.replica j,.requestStateTransfer asked⟩ ∈ s.network)
    (answered : ⟨.replica j,.replica i,.stateTransfer msg⟩ ∈
      (handleRequestStateTransfer env j (s.replicas j) (.replica i) asked).sent)
    (path : Continues (fun s act => act.Delivers (LogsFit s)) s u) (live : (u.replicas i).panicked = false)
    (later : (u.replicas i).view < msg.view) :
    TransferRight (s.replicas j).log msg.view (handleStateTransfer env i (u.replicas i) msg) ↔
      CoversSuffix (u.replicas i) msg.entries := by
  obtain ⟨a,before⟩ : ∃ a, Related anyLog s a := reached_related rfl sized (fun _ _ _ _ fits => logsFit_guarded fits) reached
  obtain ⟨_,after,onward⟩ := continues_related rfl sized (fun _ _ _ _ fits => logsFit_guarded fits) before path
  obtain ⟨_,early⟩ := answer_transferOf before requested answered
  obtain ⟨_,of⟩ := early.grows onward.grows (onward.raised i)
  have sender := before.replicas j
  have holds := after.replicas i
  obtain ⟨_,stands⟩ := holds.stands
  have carried := (settled_start after.valid stands.settled (stands.reached.trans_lt later) of.source).trans of.above
  have enough : (u.replicas i).lastCommitted ≤ (s.replicas j).log.items.length := by
    have := carried.length_le
    rwa [length_take,Nat.min_eq_left holds.committed] at this
  have agree := matches_held rfl after.valid stands.held of.source of.below
  obtain ⟨new,old,run,wf,items⟩ := transferLoop_spec (u.replicas i).lastOp msg.entries holds.wf holds.lastOp agree of.carries
    (.inl ⟨of.known,holds.committed,.inl carried⟩)
  obtain ⟨alike,held⟩ := finished_transfer (i := i) (joinTransfer env i
    {u.replicas i with lastOp := new.items.length, log := new} msg.view) msg.opnum old
  obtain ⟨view,_,log⟩ := joinTransfer_eq (i := i) {u.replicas i with lastOp := new.items.length, log := new} msg.view
  rw [log] at alike
  rw [view,Nat.max_eq_right later.le,log] at held
  rw [handleStateTransfer_eq (by omega) run live]
  constructor
  · intro right
    refine covers_of_merge holds.wf holds.lastOp agree of.carries of.known carried holds.committed ?_
    rw [← items,← alike.items]
    exact (find_agrees_iff (alike.wf wf) sender.wf).mp right.agrees
  intro covers
  rw [covered_merge holds.wf holds.lastOp of.carries enough covers] at items
  have same := (find_agrees_iff wf sender.wf).mpr (items ▸ prefix_rfl)
  refine ⟨(find_agrees_iff (alike.wf wf) sender.wf).mpr ?_,?_⟩
  · rw [alike.items,items]
  intro p member m ack
  obtain ⟨now,x,found⟩ := held p member m ack
  obtain ⟨y,there,_⟩ := same _ x found
  exact ⟨now,y,there⟩

-- Replicas 1 and 2 start view 1 without replica 0, which hears of it from a null
-- commit of replica 1 and asks for a transfer; in between, replica 1 logs "a".
def heardOfLater : List (Action 3) :=
  [.timeout 2 .viewChange,between 2 1 (.startViewChange ⟨1,2,0⟩),between 1 2 (.startViewChange ⟨1,1,0⟩),
    between 2 1 (.doViewChange ⟨1,0,0,0,[],2⟩),.invoke 7 "a",asks 7 1 "a",.timeout 1 .nullCommit,between 1 0 (.commit ⟨1,0⟩)]

def firstOfViewOne : StateTransferMessage := ⟨1,0,[entry 1 1 "a" 7]⟩

theorem transfer_right_after_catching_up : ∃ s : System three,
    TransferRight (s.replicas (1 : Fin 3)).log 1 (handleStateTransfer three (0 : Fin 3) (s.replicas (0 : Fin 3)) firstOfViewOne) ∧
    (s.replicas (0 : Fin 3)).status = .normal ∧ (s.replicas (0 : Fin 3)).view = 0 := by
  obtain ⟨s,reached,requested,answered,live,normal,view,covers⟩ := (machine three ()).reached_of_run (fun s act => act.Delivers (LogsFit s))
    (fun s =>
      ⟨.replica (0 : Fin 3),.replica (1 : Fin 3),.requestStateTransfer ⟨0,0⟩⟩ ∈ s.network ∧
      ⟨.replica (1 : Fin 3),.replica (0 : Fin 3),.stateTransfer firstOfViewOne⟩ ∈
        (handleRequestStateTransfer three (1 : Fin 3) (s.replicas (1 : Fin 3)) (.replica (0 : Fin 3)) ⟨0,0⟩).sent ∧
      (s.replicas (0 : Fin 3)).panicked = false ∧ (s.replicas (0 : Fin 3)).status = .normal ∧
      (s.replicas (0 : Fin 3)).view = 0 ∧ CoversSuffix (s.replicas (0 : Fin 3)) firstOfViewOne.entries)
    heardOfLater (by decide +kernel)
  exact ⟨s,(transfer_right_iff_covers three () s s (0 : Fin 3) (1 : Fin 3) ⟨0,0⟩ firstOfViewOne rfl reached
    requested answered .initial live (by rw [view]; decide)).mpr covers,normal,view⟩

-- The same with "x" in replica 0's log and nothing logged in view 1: the empty
-- transfer leaves "x", and replica 0 acknowledges it in view 1.
def keptStale : List (Action 3) :=
  [.invoke 5 "x",asks 5 0 "x",.timeout 2 .viewChange,between 2 1 (.startViewChange ⟨1,2,0⟩),
    between 1 2 (.startViewChange ⟨1,1,0⟩),between 2 1 (.doViewChange ⟨1,0,0,0,[],2⟩),.timeout 1 .nullCommit,
    between 1 0 (.commit ⟨1,0⟩)]

theorem stale_suffix_acknowledged : ¬ ∀ (env : Env Unit) (s u : System env) (i j : Fin env.config.n)
    (asked : RequestStateTransferMessage) (msg : StateTransferMessage), env.config.n = 2 * env.config.f + 1 →
    Reached env () (fun _ _ => True) s → ⟨.replica i,.replica j,.requestStateTransfer asked⟩ ∈ s.network →
    ⟨.replica j,.replica i,.stateTransfer msg⟩ ∈
      (handleRequestStateTransfer env j (s.replicas j) (.replica i) asked).sent →
    Continues (fun _ _ => True) s u → (u.replicas i).panicked = false → (u.replicas i).status = .normal →
    (u.replicas i).view < msg.view →
    TransferRight (s.replicas j).log msg.view (handleStateTransfer env i (u.replicas i) msg) := by
  intro right
  obtain ⟨s,reached,requested,answered,live,normal,view,absent,acked⟩ := (machine three ()).reached_of_run (fun _ _ => True) (fun s =>
      ⟨.replica (0 : Fin 3),.replica (1 : Fin 3),.requestStateTransfer ⟨0,0⟩⟩ ∈ s.network ∧
      ⟨.replica (1 : Fin 3),.replica (0 : Fin 3),.stateTransfer ⟨1,0,[]⟩⟩ ∈
        (handleRequestStateTransfer three (1 : Fin 3) (s.replicas (1 : Fin 3)) (.replica (0 : Fin 3)) ⟨0,0⟩).sent ∧
      (s.replicas (0 : Fin 3)).panicked = false ∧ (s.replicas (0 : Fin 3)).status = .normal ∧
      (s.replicas (0 : Fin 3)).view = 0 ∧ (s.replicas (1 : Fin 3)).log.find 1 = none ∧
      ⟨.replica (0 : Fin 3),.replica (1 : Fin 3),.prepareOK ⟨1,1,(0 : Fin 3)⟩⟩ ∈
        (handleStateTransfer three (0 : Fin 3) (s.replicas (0 : Fin 3)) ⟨1,0,[]⟩).sent) keptStale (by decide +kernel)
  obtain ⟨_,_,there⟩ := (right three s s (0 : Fin 3) (1 : Fin 3) ⟨0,0⟩ ⟨1,0,[]⟩ rfl reached requested
    answered .initial live normal (by rw [view]; decide)).acks _ acked _ rfl
  rw [absent] at there
  cases there

end DbExp.Tapir.Vr
