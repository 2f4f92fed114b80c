import DbExp.Aria.CalvinSerial

namespace DbExp.Aria.Calvin
open Function List
set_option linter.unusedSectionVars false
open Serial Tally

section
variable {κ ν : Type} [DecidableEq κ] {b : Batch κ ν} {a : Tasks κ ν}

-- On each active node the keys of a transaction belong to one lock manager, so one
-- worker runs the procedure there.
def OneManager (b : Batch κ ν) : Prop :=
  ∀ i p q x y, b.slot i p = some x → b.slot i q = some y → b.master x.key = b.master y.key → b.active (b.master x.key) i = true →
    b.manager x.key = b.manager y.key

theorem OneManager.same (single : OneManager b) (active : b.active c i = true) (one : b.slots c m i ≠ []) (two : b.slots c n i ≠ []) :
    m = n := by
  obtain ⟨p,first⟩ := exists_mem_of_ne_nil _ one
  obtain ⟨q,second⟩ := exists_mem_of_ne_nil _ two
  obtain ⟨x,slotX,nodeX,rfl⟩ := mem_slots.mp first
  obtain ⟨y,slotY,nodeY,rfl⟩ := mem_slots.mp second
  exact single i p q x y slotX slotY (nodeX.trans nodeY.symm) (nodeX ▸ active)

def Message.id (msg : Message ν) : Nat × Nat × Nat := (msg.node,msg.txn,msg.slot)

section
variable (b : Batch κ ν) (a : Tasks κ ν)

def HasRead (i p : Nat) : Prop := ∃ x, b.slot i p = some x ∧ (stageOf b a i x).hasRead p

def Arrived (c i p : Nat) : Prop := HasRead b a i p ∧ (c,i,p) ∉ a.shared.network.map Message.id

def Contents (c i : Nat) (t : Txn κ ν) (values : List ν) : Stage ν → Prop
  | .running left => (∀ p, p < t.reads.length → Arrived b a c i p) ∧
      ∃ done, t.body = done ++ left ∧ values = done.foldl assign (t.observe (b.before i))
  | .writing _ | .releasing _ | .done => (∀ p, p < t.reads.length → Arrived b a c i p) ∧ values = t.outcome (t.observe (b.before i))
  | .locking _ | .queued | .reading _ => ∀ p, Arrived b a c i p → values[p]? = (t.observe (b.before i))[p]?

end

structure Served (b : Batch κ ν) (a : Tasks κ ν) : Prop where
  current : Current b a
  messages : ∀ msg ∈ a.shared.network, b.active msg.node msg.txn = true ∧ HasRead b a msg.txn msg.slot ∧
    ∃ x, b.slot msg.txn msg.slot = some x ∧ b.master x.key ≠ msg.node ∧ msg.value = b.before msg.txn x.key
  unique : (a.shared.network.map Message.id).Nodup
  lengths : ∀ c i t, b.txns[i]? = some t → (a.shared.stores (c,i)).values.length = t.reads.length
  near : ∀ c i, (a.shared.stores (c,i)).localRead = tally (b.localSlots c i).toFinset fun p => ¬ HasRead b a i p
  far : ∀ c i, b.active c i = true → (a.shared.stores (c,i)).remoteRead = tally (b.remoteSlots c i).toFinset fun p => ¬ Arrived b a c i p
  contents : ∀ c m i t, b.txns[i]? = some t → b.active c i = true → b.slots c m i ≠ [] →
    Contents b a c i t (a.shared.stores (c,i)).values (a.tasks (c,m,i))

theorem mem_slotsOf (q : Slot κ → Bool) : p ∈ ((List.range (b.size i)).filter fun p => (b.slot i p).any q).toFinset ↔
    ∃ x, b.slot i p = some x ∧ q x = true := by
  rw [mem_toFinset,mem_filter,mem_range,Option.any_eq_true]
  exact ⟨fun both => both.2,fun ⟨x,got,owner⟩ => ⟨slot_size got,x,got,owner⟩⟩

theorem mem_localSlots : p ∈ (b.localSlots c i).toFinset ↔ ∃ x, b.slot i p = some x ∧ b.master x.key = c :=
  (mem_slotsOf fun x => b.master x.key == c).trans (by simp)

theorem mem_remoteSlots : p ∈ (b.remoteSlots c i).toFinset ↔ ∃ x, b.slot i p = some x ∧ b.master x.key ≠ c :=
  (mem_slotsOf fun x => b.master x.key != c).trans (by simp)

theorem initial_unread (b : Batch κ ν) (i p : Nat) : ¬ HasRead b (initialTasks b) i p := by
  rintro ⟨_,_,read⟩
  exact read

theorem initial_served (b : Batch κ ν) : Served b (initialTasks b) := by
  have unread := initial_unread b
  have card : ∀ {slots : List Nat}, slots.Nodup → slots.length = slots.toFinset.card := fun once => (toFinset_card_of_nodup once).symm
  refine ⟨?_,?_,nodup_nil,fun c i t here => b.storage_fits c i t here,?_,?_,?_⟩
  · intro k m cut
    refine (before_between (Nat.zero_le m) ?_).symm
    rintro j _ below ⟨p,x,got,key,writes⟩
    exact (cut j p x got key writes).mpr below
  · intro msg mem
    cases mem
  · intro c i
    rw [tally_all fun p _ => unread i p]
    exact card (List.Nodup.filter _ nodup_range)
  · intro c i _
    have none : ∀ p ∈ (b.remoteSlots c i).toFinset, ¬ Arrived b (initialTasks b) c i p := fun p _ arrived => unread i p arrived.1
    rw [tally_all none]
    exact card (List.Nodup.filter _ nodup_range)
  · intro c m i t _ _ _ p arrived
    exact absurd arrived.1 (unread i p)

theorem contents_congr {after : Tasks κ ν} (same : ∀ p, Arrived b a c i p ↔ Arrived b after c i p) (contents : Contents b a c i t values stage) :
    Contents b after c i t values stage := by
  cases stage with
  | running | writing | releasing | done => exact ⟨fun p inside => (same p).mp (contents.1 p inside),contents.2⟩
  | locking | queued | reading => exact fun p arrived => contents p ((same p).mpr arrived)

section
variable {shared : Shared κ ν} {next : Stage ν}

theorem HasRead.step (done : Advance b a.shared c m i (a.tasks (c,m,i)) shared next) (shape : Shape b c m i (a.tasks (c,m,i))) :
    HasRead b ⟨shared,update a.tasks (c,m,i) next⟩ j q ↔
      HasRead b a j q ∨ j = i ∧ ∃ rest, a.tasks (c,m,i) = .reading (q :: rest) := by
  constructor
  · rintro ⟨x,got,read⟩
    exact ((hasRead_step done shape got).mp read).imp_left fun before => ⟨x,got,before⟩
  rintro (⟨x,got,read⟩ | ⟨rfl,rest,here⟩)
  · exact ⟨x,got,(hasRead_step done shape got).mpr (.inl read)⟩
  have mem : q ∈ b.slots c m j := by
    have shape := shape
    rw [here] at shape
    exact mem_reverse.mp (shape.2.subset (by simp))
  obtain ⟨x,got,_⟩ := mem_slots.mp mem
  exact ⟨x,got,(hasRead_step done shape got).mpr (.inr ⟨rfl,rest,here⟩)⟩

-- One storage changes; what the others hold and wait for stays as it is.
theorem Served.change (served : Served b a) {after : Tasks κ ν} (node txn : Nat) (store : Store ν)
    (stores : after.shared.stores = update a.shared.stores (node,txn) store) (current : Current b after)
    (messages : ∀ msg ∈ after.shared.network, b.active msg.node msg.txn = true ∧ HasRead b after msg.txn msg.slot ∧
      ∃ x, b.slot msg.txn msg.slot = some x ∧ b.master x.key ≠ msg.node ∧ msg.value = b.before msg.txn x.key)
    (unique : (after.shared.network.map Message.id).Nodup) (length : store.values.length = (a.shared.stores (node,txn)).values.length)
    (tasks : ∀ d n j, (d,j) ≠ (node,txn) → after.tasks (d,n,j) = a.tasks (d,n,j))
    (read : ∀ d j, (d,j) ≠ (node,txn) → ∀ p ∈ (b.localSlots d j).toFinset, (HasRead b a j p ↔ HasRead b after j p))
    (arrived : ∀ d j, (d,j) ≠ (node,txn) → b.active d j = true → ∀ p, Arrived b a d j p ↔ Arrived b after d j p)
    (near : store.localRead = tally (b.localSlots node txn).toFinset fun p => ¬ HasRead b after txn p)
    (far : b.active node txn = true → store.remoteRead = tally (b.remoteSlots node txn).toFinset fun p => ¬ Arrived b after node txn p)
    (contents : ∀ n t, b.txns[txn]? = some t → b.active node txn = true → b.slots node n txn ≠ [] →
      Contents b after node txn t store.values (after.tasks (node,n,txn))) : Served b after := by
  refine ⟨current,messages,unique,?_,?_,?_,?_⟩
  · intro d j t here
    rw [stores]
    by_cases same : (d,j) = (node,txn)
    · cases same
      rw [update_self,length]
      exact served.lengths node txn t here
    · rw [update_of_ne same]
      exact served.lengths d j t here
  · intro d j
    rw [stores]
    by_cases same : (d,j) = (node,txn)
    · cases same
      rw [update_self]
      exact near
    · rw [update_of_ne same,served.near d j]
      exact tally_congr fun p mem => not_congr (read d j same p mem)
  · intro d j active
    rw [stores]
    by_cases same : (d,j) = (node,txn)
    · cases same
      rw [update_self]
      exact far active
    · rw [update_of_ne same,served.far d j active]
      exact tally_congr fun p _ => not_congr (arrived d j same active p)
  intro d n j t here active some
  rw [stores]
  by_cases same : (d,j) = (node,txn)
  · cases same
    rw [update_self]
    exact contents n t here active some
  · rw [update_of_ne same,tasks d n j same]
    exact contents_congr (arrived d j same active) (served.contents d n j t here active some)

theorem task_other (other : (d,j) ≠ (c,i)) : update a.tasks (c,m,i) next (d,n,j) = a.tasks (d,n,j) := by
  refine update_of_ne ?_ _ _
  rintro ⟨⟩
  exact other rfl

section
variable (served : Served b a) (locked : Locked b a) (done : Advance b a.shared c m i (a.tasks (c,m,i)) shared next)
  (current : Current b ⟨shared,update a.tasks (c,m,i) next⟩)
include served locked done current

theorem Served.turn (network : shared.network = a.shared.network)
    (unread : ∀ p rest, a.tasks (c,m,i) ≠ .reading (p :: rest)) (values : List ν)
    (stores : shared.stores = update a.shared.stores (c,i) {a.shared.stores (c,i) with values := values})
    (length : values.length = (a.shared.stores (c,i)).values.length)
    (own : ∀ n t, b.txns[i]? = some t → b.active c i = true → b.slots c n i ≠ [] →
      Contents b a c i t (a.shared.stores (c,i)).values (a.tasks (c,n,i)) →
      Contents b a c i t values (update a.tasks (c,m,i) next (c,n,i))) :
    Served b ⟨shared,update a.tasks (c,m,i) next⟩ := by
  have read : ∀ j q, HasRead b a j q ↔ HasRead b ⟨shared,update a.tasks (c,m,i) next⟩ j q := by
    intro j q
    rw [HasRead.step done (locked.shape c m i)]
    simp [unread]
  have arrived : ∀ d j q, Arrived b a d j q ↔ Arrived b ⟨shared,update a.tasks (c,m,i) next⟩ d j q := by
    intro d j q
    unfold Arrived
    rw [read j q,network]
  refine served.change c i _ stores current ?_ (network ▸ served.unique) length (fun _ _ _ => task_other) (fun _ j _ p _ => read j p)
    (fun d j _ _ p => arrived d j p) ((served.near c i).trans (tally_congr fun p _ => not_congr (read i p))) ?_ ?_
  · intro msg mem
    obtain ⟨active,before,rest⟩ := served.messages msg (network ▸ mem)
    exact ⟨active,(read _ _).mp before,rest⟩
  · exact fun active => (served.far c i active).trans (tally_congr fun p _ => not_congr (arrived c i p))
  · exact fun n t here active some => contents_congr (arrived c i) (own n t here active some (served.contents c n i t here active some))

theorem Served.quiet (stores : shared.stores = a.shared.stores)
    (network : shared.network = a.shared.network) (unread : ∀ p rest, a.tasks (c,m,i) ≠ .reading (p :: rest))
    (own : ∀ t, b.txns[i]? = some t → b.active c i = true → b.slots c m i ≠ [] →
      Contents b a c i t (a.shared.stores (c,i)).values (a.tasks (c,m,i)) → Contents b a c i t (a.shared.stores (c,i)).values next) :
    Served b ⟨shared,update a.tasks (c,m,i) next⟩ := by
  refine served.turn locked done current network unread _ (stores.trans (update_eq_self _ _).symm) rfl ?_
  intro n t here active some before
  by_cases mine : n = m
  · subst mine
    rw [update_self]
    exact own t here active some before
  · rw [update_of_ne (by simp [mine])]
    exact before

end

theorem others_iff (active : b.active d i = true) : d ∈ (List.range b.nodes).filter (fun d => d != c && b.active d i) ↔ d ≠ c := by
  obtain ⟨_,x,_,_,rfl⟩ := active_iff.mp active
  have inside : b.master x.key < b.nodes := Nat.mod_lt _ b.some_nodes
  simp [inside,active]

theorem read_network (b : Batch κ ν) (c i p : Nat) (x : Slot κ) (s : Shared κ ν) :
    (readSlot b c i p x s).network.map Message.id =
      s.network.map Message.id ++ ((List.range b.nodes).filter fun d => d != c && b.active d i).map fun d => (d,i,p) := by
  simp only [readSlot,map_append,map_map]
  rfl

section
variable {p : Nat} {rest : List Nat} {x : Slot κ}
variable (served : Served b a) (locked : Locked b a) (here : a.tasks (c,m,i) = .reading (p :: rest)) (got : b.slot i p = some x)
include locked here

theorem reading_slot : p ∈ b.slots c m i := by
  have shape := locked.shape c m i
  rw [here] at shape
  exact mem_reverse.mp (shape.2.subset (by simp))

include got

theorem reading_node : b.master x.key = c := by
  obtain ⟨_,same,node,_⟩ := mem_slots.mp (reading_slot locked here)
  cases got.symm.trans same
  exact node

theorem reading_unread : ¬ HasRead b a i p := by
  rintro ⟨_,same,read⟩
  cases got.symm.trans same
  rw [stage_mine (reading_slot locked here) got,here] at read
  exact read (by simp)

include served

theorem reading_value : a.shared.db x.key = b.before i x.key := by
  have stage := stage_mine (a := a) (reading_slot locked here) got
  apply served.current
  apply locked.cut got
  · rw [stage,here]; trivial
  · rw [stage,here]; exact id

theorem reading_absent (d : Nat) : (d,i,p) ∉ a.shared.network.map Message.id := by
  intro inside
  obtain ⟨msg,sent,same⟩ := mem_map.mp inside
  have read := (served.messages msg sent).2.1
  simp only [Message.id,Prod.mk.injEq] at same
  rw [same.2.1,same.2.2] at read
  exact reading_unread locked here got read

theorem reading_done : Advance b a.shared c m i (a.tasks (c,m,i)) (readSlot b c i p x a.shared) (.reading rest) := by
  rw [here]
  exact .read got

section
variable (after : Tasks κ ν) (result : after = ⟨readSlot b c i p x a.shared,update a.tasks (c,m,i) (.reading rest)⟩)
include after result

theorem reading_marks (j q : Nat) : HasRead b after j q ↔ HasRead b a j q ∨ j = i ∧ q = p := by
  subst result
  rw [HasRead.step (reading_done served locked here got) (locked.shape c m i),here]
  simp [eq_comm]

theorem reading_arrived
    (active : b.active d j = true) (q : Nat) : Arrived b after d j q ↔ Arrived b a d j q ∨ d = c ∧ j = i ∧ q = p := by
  unfold Arrived
  rw [reading_marks served locked here got after result]
  subst result
  rw [read_network,mem_append]
  by_cases same : j = i ∧ q = p
  · obtain ⟨rfl,rfl⟩ := same
    have unread := reading_unread locked here got
    have absent := reading_absent served locked here got d
    have others := others_iff (c := c) active
    simp only [unread,absent,false_and,false_or,and_self,and_true,true_and,mem_map,Prod.mk.injEq]
    simp only [exists_eq_right,others,not_not]
  have sent : (d,j,q) ∉ ((List.range b.nodes).filter fun d => d != c && b.active d i).map fun d => (d,i,p) := by
    intro inside
    obtain ⟨_,_,equal⟩ := mem_map.mp inside
    simp only [Prod.mk.injEq] at equal
    exact same ⟨equal.2.1.symm,equal.2.2.symm⟩
  simp only [same,sent,and_false,or_false]

end

end

theorem Served.read (served : Served b a) (locked : Locked b a) (single : OneManager b) (here : a.tasks (c,m,i) = .reading (p :: rest))
    (got : b.slot i p = some x) (after : Tasks κ ν)
    (result : after = ⟨readSlot b c i p x a.shared,update a.tasks (c,m,i) (.reading rest)⟩) : Served b after := by
  have done := reading_done served locked here got
  have node := reading_node locked here got
  have value := reading_value served locked here got
  have unread := reading_unread locked here got
  have marks := reading_marks served locked here got after result
  have arrived := fun {d j} => reading_arrived (d := d) (j := j) served locked here got after result
  refine served.change c i _ (congrArg (fun x => x.shared.stores) result) ?_ ?_ ?_ (length_set ..) ?_ ?_ ?_ ?_ ?_ ?_
  · rw [result]
    exact served.current.quiet locked done rfl (by rw [here]; simp)
  · intro msg mem
    rw [result] at mem
    rcases mem_append.mp mem with old | new
    · obtain ⟨active,read,rest⟩ := served.messages msg old
      exact ⟨active,(marks _ _).mpr (.inl read),rest⟩
    obtain ⟨d,other,rfl⟩ := mem_map.mp new
    have other : d < b.nodes ∧ d ≠ c ∧ b.active d i = true := by simpa using other
    refine ⟨other.2.2,(marks i p).mpr (.inr ⟨rfl,rfl⟩),x,got,?_,value⟩
    rw [node]
    exact other.2.1.symm
  · rw [result]
    rw [read_network]
    refine nodup_append.mpr ⟨served.unique,?_,?_⟩
    · apply List.Nodup.map
      · intro d e same
        exact congrArg Prod.fst same
      · exact List.Nodup.filter _ nodup_range
    · rintro _ old _ new rfl
      obtain ⟨d,_,rfl⟩ := mem_map.mp new
      exact reading_absent served locked here got d old
  · intro d n j other
    rw [result]
    exact task_other other
  · intro d j other q mem
    rw [marks]
    refine ⟨.inl,fun read => read.resolve_right ?_⟩
    rintro ⟨rfl,rfl⟩
    obtain ⟨y,second,there⟩ := mem_localSlots.mp mem
    cases got.symm.trans second
    exact other (by rw [← there,node])
  · intro d j other active q
    rw [arrived active]
    refine ⟨.inl,fun there => there.resolve_right ?_⟩
    rintro ⟨rfl,rfl,rfl⟩
    exact other rfl
  · have count := tally_gain (p := fun q => ¬ HasRead b after i q) (q := fun q => ¬ HasRead b a i q)
      (mem_localSlots.mpr ⟨x,got,node⟩) (not_not.mpr ((marks i p).mpr (.inr ⟨rfl,rfl⟩))) unread
      fun q _ apart => not_congr (by rw [marks]; simp [apart])
    simp only [served.near c i]
    omega
  · intro active
    refine (served.far c i active).trans (tally_congr fun q mem => not_congr ?_)
    rw [arrived active]
    refine ⟨.inl,fun there => there.resolve_right ?_⟩
    rintro ⟨_,_,rfl⟩
    obtain ⟨y,second,apart⟩ := mem_remoteSlots.mp mem
    cases got.symm.trans second
    exact apart node
  intro n t there active some
  have before := served.contents c n i t there active some
  obtain rfl := single.same active some (ne_nil_of_mem (reading_slot locked here))
  have slot := got
  rw [slot_some there] at slot
  rw [here] at before
  rw [result]
  change Contents _ _ _ _ _ _ (update a.tasks _ _ _)
  rw [update_self,← result]
  intro q came
  by_cases equal : p = q
  · subst equal
    have inside : p < (a.shared.stores (c,i)).values.length := by
      rw [served.lengths c i t there]
      exact (List.getElem?_eq_some_iff.mp slot).1
    rw [List.getElem?_set_self inside,value,Txn.observe,List.getElem?_map,slot]
    rfl
  · rw [List.getElem?_set_ne equal]
    exact before q (((arrived active q).mp came).resolve_right fun event => equal event.2.2.symm)

theorem Served.assign (served : Served b a) (locked : Locked b a) (single : OneManager b) (here : a.tasks (c,m,i) = .running (statement :: left)) :
    Served b ⟨assignSlot c i statement a.shared,update a.tasks (c,m,i) (.running left)⟩ := by
  have done : Advance b a.shared c m i (a.tasks (c,m,i)) (assignSlot c i statement a.shared) (.running left) := by
    rw [here]
    exact .assign
  have busy : b.slots c m i ≠ [] := by
    have shape := locked.shape c m i
    rw [here] at shape
    exact shape.1
  refine served.turn locked done (served.current.quiet locked done rfl (by rw [here]; simp)) rfl (by simp [here]) _ rfl
    (length_set ..) ?_
  intro n t _ active some before
  obtain rfl := single.same active some busy
  rw [here] at before
  obtain ⟨all,ran,split,values⟩ := before
  rw [update_self]
  exact ⟨all,ran ++ [statement],by rw [split]; simp,by rw [values]; simp⟩

theorem erased_iff {network : List (Message ν)} (unique : (network.map Message.id).Nodup) (there : network[k]? = some msg) (id : Nat × Nat × Nat) :
    id ∈ (network.eraseIdx k).map Message.id ↔ id ∈ network.map Message.id ∧ id ≠ msg.id := by
  have split : network.map Message.id = (network.take k).map Message.id ++ msg.id :: (network.drop (k+1)).map Message.id := by
    obtain ⟨_,rfl⟩ := List.getElem?_eq_some_iff.mp there
    rw [← map_cons,← map_append]
    simp
  rw [split] at unique
  obtain ⟨_,later,apart⟩ := nodup_append.mp unique
  have after := (nodup_cons.mp later).1
  have before : msg.id ∉ (network.take k).map Message.id := fun earlier => apart _ earlier _ mem_cons_self rfl
  rw [split,eraseIdx_eq_take_drop_succ,map_append,mem_append,mem_append,mem_cons]
  constructor
  · rintro (one | two)
    · exact ⟨.inl one,by rintro rfl; exact before one⟩
    · exact ⟨.inr (.inr two),by rintro rfl; exact after two⟩
  rintro ⟨one | same | two,other⟩
  · exact .inl one
  · exact absurd same other
  · exact .inr two

section
variable (served : Served b a)
include served

theorem Served.deliver (there : a.shared.network[k]? = some msg) (after : Tasks κ ν)
    (tasks : after.tasks = a.tasks) (db : after.shared.db = a.shared.db) (network : after.shared.network = a.shared.network.eraseIdx k)
    (stores : after.shared.stores = update a.shared.stores (msg.node,msg.txn)
      ⟨(a.shared.stores (msg.node,msg.txn)).values.set msg.slot msg.value,(a.shared.stores (msg.node,msg.txn)).localRead,
        (a.shared.stores (msg.node,msg.txn)).remoteRead - 1⟩) : Served b after := by
  have mem := mem_of_getElem? there
  obtain ⟨_,read,x,got,remote,value⟩ := served.messages msg mem
  have stage : ∀ j y, stageOf b a j y = stageOf b after j y := by
    intro j y
    unfold stageOf
    rw [tasks]
  have marks : ∀ j q, HasRead b a j q ↔ HasRead b after j q := by
    intro j q
    unfold HasRead
    simp only [stage]
  have arrived : ∀ d j q, Arrived b after d j q ↔ Arrived b a d j q ∨ (d,j,q) = msg.id := by
    intro d j q
    unfold Arrived
    rw [← marks j q,network,erased_iff served.unique there]
    by_cases same : (d,j,q) = msg.id
    · have parts := same
      simp only [Message.id,Prod.mk.injEq] at parts
      obtain ⟨rfl,rfl,rfl⟩ := parts
      simp [same,read]
    · simp [same]
  have waiting : ¬ Arrived b a msg.node msg.txn msg.slot := fun came => came.2 (mem_map_of_mem mem)
  have elsewhere : ∀ d j, (d,j) ≠ (msg.node,msg.txn) → ∀ q, Arrived b a d j q ↔ Arrived b after d j q := by
    intro d j other q
    rw [arrived]
    refine ⟨.inl,fun came => came.resolve_right fun equal => other ?_⟩
    simp only [Message.id,Prod.mk.injEq] at equal
    rw [equal.1,equal.2.1]
  refine served.change msg.node msg.txn _ stores ?_ ?_ ?_ (length_set ..) (fun _ _ _ _ => by rw [tasks]) (fun _ j _ q _ => marks j q)
    (fun d j other _ => elsewhere d j other) ((served.near _ _).trans (tally_congr fun q _ => not_congr (marks _ q))) ?_ ?_
  · intro k l cut
    rw [db]
    apply served.current k l
    intro j q y second key writes
    rw [stage]
    exact cut j q y second key writes
  · intro other kept
    rw [network] at kept
    obtain ⟨busy,before,rest⟩ := served.messages other (mem_of_mem_eraseIdx kept)
    exact ⟨busy,(marks _ _).mp before,rest⟩
  · rw [network]
    exact served.unique.sublist ((eraseIdx_sublist _ _).map _)
  · intro busy
    have count := tally_gain (p := fun q => ¬ Arrived b after msg.node msg.txn q) (q := fun q => ¬ Arrived b a msg.node msg.txn q)
      (mem_remoteSlots.mpr ⟨x,got,remote⟩) (not_not.mpr ((arrived _ _ _).mpr (.inr rfl))) waiting
      fun q _ apart => not_congr (by rw [arrived]; simp [Message.id,apart])
    simp only [served.far _ _ busy]
    omega
  intro n t here busy some
  have before := served.contents msg.node n msg.txn t here busy some
  rw [tasks]
  have slot := got
  rw [slot_some here] at slot
  have inside := (List.getElem?_eq_some_iff.mp slot).1
  have place : (∀ q, Arrived b a msg.node msg.txn q → (a.shared.stores (msg.node,msg.txn)).values[q]? = (t.observe (b.before msg.txn))[q]?) →
      ∀ q, Arrived b after msg.node msg.txn q →
      ((a.shared.stores (msg.node,msg.txn)).values.set msg.slot msg.value)[q]? = (t.observe (b.before msg.txn))[q]? := by
    intro right q came
    by_cases equal : msg.slot = q
    · subst equal
      rw [List.getElem?_set_self (by rw [served.lengths _ _ t here]; exact inside),value,Txn.observe,List.getElem?_map,slot]
      rfl
    rw [List.getElem?_set_ne equal]
    apply right
    refine ((arrived _ _ _).mp came).resolve_right fun event => equal ?_
    simp only [Message.id,Prod.mk.injEq] at event
    exact event.2.2.symm
  -- past the reads nothing is under way to this node
  generalize a.tasks (msg.node,n,msg.txn) = stage at before
  cases stage with
  | running | writing | releasing | done => exact absurd (before.1 _ inside) waiting
  | locking | queued | reading => exact place before

theorem Served.all_arrived (here : b.txns[i]? = some t) (active : b.active c i = true)
    (near : (a.shared.stores (c,i)).localRead = 0) (far : (a.shared.stores (c,i)).remoteRead = 0) (p : Nat) (inside : p < t.reads.length) :
    Arrived b a c i p := by
  rw [served.near c i] at near
  rw [served.far c i active] at far
  have got : b.slot i p = some t.reads[p] := by rw [slot_some here]; exact List.getElem?_eq_getElem inside
  by_cases home : b.master t.reads[p].key = c
  · refine ⟨not_not.mp (tally_eq_zero.mp near p (mem_localSlots.mpr ⟨_,got,home⟩)),?_⟩
    intro sent
    obtain ⟨msg,mem,same⟩ := mem_map.mp sent
    obtain ⟨_,_,_,slot,remote,_⟩ := served.messages msg mem
    simp only [Message.id,Prod.mk.injEq] at same
    rw [same.2.1,same.2.2,got] at slot
    cases slot
    exact remote (home.trans same.1.symm)
  · exact not_not.mp (tally_eq_zero.mp far p (mem_remoteSlots.mpr ⟨_,got,home⟩))

theorem Served.run (here : b.txns[i]? = some t) (active : b.active c i = true)
    (near : (a.shared.stores (c,i)).localRead = 0) (far : (a.shared.stores (c,i)).remoteRead = 0)
    (before : Contents b a c i t (a.shared.stores (c,i)).values (.reading [])) :
    Contents b a c i t (a.shared.stores (c,i)).values (.running (b.body i)) := by
  have all := served.all_arrived here active near far
  refine ⟨all,[],by simp [Batch.body,here],?_⟩
  apply ext_getElem?
  intro p
  by_cases inside : p < t.reads.length
  · exact before p (all p inside)
  · have length := served.lengths c i t here
    rw [List.getElem?_eq_none (by omega),List.getElem?_eq_none (by simpa [Txn.observe] using inside)]

theorem Served.written_value (locked : Locked b a) (here : a.tasks (c,m,i) = .writing (p :: rest))
    (got : b.slot i p = some x) (stored : (a.shared.stores (c,i)).values[p]? = some value) : value = b.before (i+1) x.key := by
  have shape := locked.shape c m i
  rw [here] at shape
  obtain ⟨busy,active,suffix⟩ := shape
  obtain ⟨_,_,again,writes⟩ := mem_modeSlots.mp (suffix.subset mem_cons_self)
  cases got.symm.trans again
  have there := List.getElem?_eq_getElem (slot_txn got)
  have contents := served.contents c m i _ there active busy
  rw [here] at contents
  rw [contents.2] at stored
  exact (before_slot got writes there stored).symm

end

theorem Served.step {after : Tasks κ ν} (served : Served b a) (locked : Locked b a) (single : OneManager b) (taken : TaskStep b a after) :
    Served b after := by
  cases taken with
  | deliver got =>
    obtain ⟨_,there,rfl⟩ := Option.map_eq_some_iff.mp got
    exact served.deliver there _ rfl rfl rfl rfl
  | advance done turn =>
    rename_i c m i shared stage
    generalize here : a.tasks (c,m,i) = before at done
    have again := done
    rw [← here] at again
    cases done with
    | read got => exact served.read locked single here got _ rfl
    | assign => exact served.assign locked single here
    | lock | grant | start | release | finish | written =>
      apply served.quiet locked again (served.current.quiet locked again rfl (by rw [here]; simp)) rfl rfl (by rw [here]; simp)
      intro t _ _ _ contents
      rw [here] at contents
      exact contents
    | skip none =>
      apply served.quiet locked again (served.current.quiet locked again rfl (by rw [here]; simp)) rfl rfl (by rw [here]; simp)
      intro t _ _ busy
      exact absurd none busy
    | abort inactive =>
      apply served.quiet locked again (served.current.quiet locked again rfl (by rw [here]; simp)) rfl rfl (by rw [here]; simp)
      intro t _ active
      exact absurd active inactive
    | run active near far =>
      apply served.quiet locked again (served.current.quiet locked again rfl (by rw [here]; simp)) rfl rfl (by rw [here]; simp)
      intro t there _ _ contents
      rw [here] at contents
      exact served.run there active near far contents
    | ended =>
      apply served.quiet locked again (served.current.quiet locked again rfl (by rw [here]; simp)) rfl rfl (by rw [here]; simp)
      intro t _ _ _ contents
      rw [here] at contents
      obtain ⟨all,done,split,values⟩ := contents
      refine ⟨all,?_⟩
      rw [values,Txn.outcome,split,append_nil]
    | write got stored =>
      have right := served.written_value locked here got stored
      apply served.quiet locked again (served.current.write locked here got stored right) rfl rfl (by rw [here]; simp)
      intro t _ _ _ contents
      rw [here] at contents
      exact contents

section
variable (single : OneManager b) (reached : Relation.ReflTransGen (TaskStep b) (initialTasks b) a)
include single reached

theorem reached_served : Served b a := by
  induction reached with
  | refl => exact initial_served b
  | tail before taken ih => exact ih.step (reached_locked before) single taken

theorem tasks_serial
    (complete : ∀ c m i, b.slots c m i ≠ [] → a.tasks (c,m,i) = .done) : a.shared.db = Calvin.serial b.txns b.db := by
  have final : Calvin.serial b.txns b.db = b.before b.txns.length := by rw [Batch.before,take_length]
  funext k
  rw [final]
  apply (reached_served single reached).current
  intro i p x got _ _
  have mem : p ∈ b.slots (b.master x.key) (b.manager x.key) i := mem_slots.mpr ⟨x,got,rfl,rfl⟩
  rw [stageOf,complete _ _ i (ne_nil_of_mem mem)]
  exact ⟨fun _ => slot_txn got,fun _ => trivial⟩

end

end
end
end DbExp.Aria.Calvin
