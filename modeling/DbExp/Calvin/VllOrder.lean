import DbExp.Calvin.Vll

namespace DbExp.Calvin.Vll
open Function List
variable {κ : Type} {cfg : Config κ} {queue : List (Txn κ)}

@[simp] theorem activate_id (t : Txn κ) : t.activate.id = t.id := rfl

theorem Conflict.symm {t u : Txn κ} (conflict : Conflict cfg t u) : Conflict cfg u t := by
  obtain ⟨h,⟨writes,writes' | reads⟩ | ⟨reads,writes⟩⟩ := conflict
  · exact ⟨h,.inl ⟨writes',.inl writes⟩⟩
  · exact ⟨h,.inr ⟨reads,writes⟩⟩
  · exact ⟨h,.inl ⟨writes,.inr reads⟩⟩

theorem set_foldl (l : List Nat) (f : Nat → Bool) (g : Nat) :
    l.foldl (fun f h => update f h true) f g = (f g || decide (g ∈ l)) := by
  induction l generalizing f with
  | nil => simp
  | cons h l ih =>
    rw [foldl_cons,ih]
    by_cases same : g = h
    · subst same; simp
    · simp [same]

theorem checkWrites_bits (l : List Nat) (now : Bits × Bool) :
    (l.foldl checkWrite now).1 = ⟨l.foldl (fun f h => update f h true) now.1.dx,now.1.ds⟩ := by
  induction l generalizing now with
  | nil => rfl
  | cons h l ih => exact ih _

theorem checkReads_bits (l : List Nat) (now : Bits × Bool) :
    (l.foldl checkRead now).1 = ⟨now.1.dx,l.foldl (fun f h => update f h true) now.1.ds⟩ := by
  induction l generalizing now with
  | nil => rfl
  | cons h l ih => exact ih _

theorem check_bits (bits : Bits) (w r : List Nat) : (check bits w r).1 = mark bits w r := by
  rw [check,checkReads_bits,checkWrites_bits]
  rfl

theorem checkWrites_free (l : List Nat) (now : Bits × Bool) (passed : (l.foldl checkWrite now).2 = true) :
    now.2 = true ∧ ∀ h ∈ l, now.1.dx h = false ∧ now.1.ds h = false := by
  induction l generalizing now with
  | nil => exact ⟨passed,fun _ mem => (not_mem_nil mem).elim⟩
  | cons h l ih =>
    rw [foldl_cons] at passed
    obtain ⟨before,rest⟩ := ih _ passed
    simp only [checkWrite] at before rest
    split at before
    · cases before
    rename_i free
    simp only [Bool.or_eq_true,not_or,Bool.not_eq_true] at free
    refine ⟨before,forall_mem_cons.mpr ⟨free,?_⟩⟩
    intro g later
    have kept := rest g later
    by_cases same : g = h
    · subst same; exact free
    · rw [update_of_ne same] at kept
      exact kept

theorem checkReads_free (l : List Nat) (now : Bits × Bool) (passed : (l.foldl checkRead now).2 = true) :
    now.2 = true ∧ ∀ h ∈ l, now.1.dx h = false := by
  induction l generalizing now with
  | nil => exact ⟨passed,fun _ mem => (not_mem_nil mem).elim⟩
  | cons h l ih =>
    rw [foldl_cons] at passed
    obtain ⟨before,rest⟩ := ih _ passed
    simp only [checkRead] at before rest
    split at before
    · cases before
    next free =>
      exact ⟨before,forall_mem_cons.mpr ⟨by simpa using free,rest⟩⟩

def Covers (cfg : Config κ) (bits : Bits) (earlier : List (Txn κ)) : Prop :=
  ∀ t ∈ earlier, (∀ h ∈ writes cfg t, bits.dx h = true) ∧ ∀ h ∈ reads cfg t, bits.ds h = true

theorem Covers.mark (covers : Covers cfg bits earlier) (t : Txn κ) :
    Covers cfg (mark bits (writes cfg t) (reads cfg t)) (earlier ++ [t]) := by
  intro u listed
  simp only [Vll.mark,set_foldl]
  rcases mem_append.mp listed with before | here
  · obtain ⟨w,r⟩ := covers u before
    exact ⟨fun h used => by rw [w h used]; rfl,fun h used => by rw [r h used]; rfl⟩
  · rw [mem_singleton.mp here]
    exact ⟨fun h used => by simp [used],fun h used => by simp [used]⟩

theorem Covers.apart (covers : Covers cfg bits earlier) (passed : (check bits (writes cfg t) (reads cfg t)).2 = true)
    (before : u ∈ earlier) : ¬ Conflict cfg u t := by
  obtain ⟨w,r⟩ := covers u before
  rw [check] at passed
  obtain ⟨first,readable⟩ := checkReads_free _ _ passed
  obtain ⟨_,writable⟩ := checkWrites_free _ _ first
  rw [checkWrites_bits] at readable
  simp only [set_foldl,Bool.or_eq_false_iff] at readable
  rintro ⟨h,⟨wu,wt | rt⟩ | ⟨ru,wt⟩⟩
  · have free := (writable h wt).1
    rw [w h wu] at free
    cases free
  · have free := (readable h rt).1
    rw [w h wu] at free
    cases free
  · have free := (writable h wt).2
    rw [r h ru] at free
    cases free

section
variable (ids : List Int)

def activateIn (t : Txn κ) : Txn κ := if t.id ∈ ids then t.activate else t

def pick (queue : List (Txn κ)) : List (Txn κ) × List (Txn κ) :=
  (queue.map (activateIn ids),(queue.filter fun t => decide (t.id ∈ ids)).map Txn.activate)

@[simp] theorem activateIn_id (t : Txn κ) : (activateIn ids t).id = t.id := by
  unfold activateIn
  split <;> rfl

@[simp] theorem writes_activateIn (t : Txn κ) : writes cfg (activateIn ids t) = writes cfg t := by
  unfold activateIn
  split <;> rfl

@[simp] theorem reads_activateIn (t : Txn κ) : reads cfg (activateIn ids t) = reads cfg t := by
  unfold activateIn
  split <;> rfl

end

def Sorted (queue : List (Txn κ)) : Prop := queue.Pairwise fun t u => t.id < u.id

theorem Sorted.unique (sorted : Sorted queue) (first : t ∈ queue) (second : u ∈ queue) (same : t.id = u.id) : t = u := by
  induction queue with
  | nil => cases first
  | cons head rest ih =>
    obtain ⟨above,tail⟩ := pairwise_cons.mp sorted
    rcases mem_cons.mp first with rfl | later <;> rcases mem_cons.mp second with rfl | later'
    · rfl
    · have := above u later'; omega
    · have := above t later; omega
    · exact ih tail later later'

theorem pick_none (queue : List (Txn κ)) : pick [] queue = (queue,[]) := by
  have same : activateIn ([] : List Int) = fun t : Txn κ => t := by
    funext t
    simp [activateIn]
  simp [pick,same]

theorem pick_absent {queue : List (Txn κ)} (ids : List Int) (others : ∀ u ∈ queue, u.id ≠ i) : pick (i :: ids) queue = pick ids queue := by
  unfold pick
  congr 1
  · apply map_congr_left
    intro u listed
    simp [activateIn,others u listed]
  congr 1
  apply filter_congr
  intro u listed
  simp [others u listed]

theorem pick_first {t : Txn κ} (sorted : Sorted (t :: rest)) (ids : List Int) :
    pick (t.id :: ids) (t :: rest) = (t.activate :: (pick ids rest).1,t.activate :: (pick ids rest).2) := by
  have others : ∀ u ∈ rest, u.id ≠ t.id := fun u later => by
    have := (pairwise_cons.mp sorted).1 u later
    omega
  rw [← pick_absent ids others]
  simp [pick,activateIn]

theorem pick_last {queue : List (Txn κ)} (others : ∀ u ∈ queue, u.id ≠ t.id) :
    pick [t.id] (queue ++ [t]) = (queue ++ [t.activate],[t.activate]) := by
  obtain ⟨kept,none⟩ := Prod.mk.inj ((pick_absent [] others).trans (pick_none queue))
  rw [pick,map_append,filter_append,map_append,kept,none]
  simp [activateIn]

structure Choice (cfg : Config κ) (earlier queue : List (Txn κ)) (ids : List Int) : Prop where
  listed : ∀ i ∈ ids, ∃ t ∈ queue, t.id = i
  blocked : ∀ t ∈ queue, t.id ∈ ids → t.status = .blocked
  apart : ∀ t ∈ queue, t.id ∈ ids → (∀ u ∈ earlier, ¬ Conflict cfg u t) ∧ ∀ u ∈ queue, u.id < t.id → ¬ Conflict cfg u t

theorem Choice.cons (choice : Choice cfg (earlier ++ [t]) rest ids) (sorted : Sorted (t :: rest)) : Choice cfg earlier (t :: rest) ids := by
  obtain ⟨above,_⟩ := pairwise_cons.mp sorted
  have notFirst : ∀ u ∈ t :: rest, u.id ∈ ids → u ∈ rest := by
    intro u listed chosen
    obtain ⟨v,inRest,same⟩ := choice.listed u.id chosen
    rcases mem_cons.mp listed with rfl | later
    · have := above v inRest; omega
    · exact later
  refine ⟨?_,?_,?_⟩
  · intro i chosen
    obtain ⟨u,inRest,same⟩ := choice.listed i chosen
    exact ⟨u,mem_cons_of_mem t inRest,same⟩
  · intro u listed chosen
    exact choice.blocked u (notFirst u listed chosen) chosen
  intro u listed chosen
  obtain ⟨before,inside⟩ := choice.apart u (notFirst u listed chosen) chosen
  refine ⟨fun v early => before v (mem_append_left _ early),?_⟩
  intro v inQueue less
  rcases mem_cons.mp inQueue with rfl | later
  · exact before v (mem_append_right _ (mem_singleton_self v))
  · exact inside v later less

theorem Choice.add (choice : Choice cfg earlier (t :: rest) ids) (sorted : Sorted (t :: rest)) (waits : t.status = .blocked)
    (free : ∀ u ∈ earlier, ¬ Conflict cfg u t) : Choice cfg earlier (t :: rest) (t.id :: ids) := by
  refine ⟨?_,?_,?_⟩
  · intro i chosen
    rcases mem_cons.mp chosen with rfl | old
    · exact ⟨t,mem_cons_self,rfl⟩
    · exact choice.listed i old
  · intro u listed chosen
    rcases mem_cons.mp chosen with same | old
    · rw [sorted.unique listed mem_cons_self same]; exact waits
    · exact choice.blocked u listed old
  intro u listed chosen
  rcases mem_cons.mp chosen with same | old
  · rw [sorted.unique listed mem_cons_self same]
    refine ⟨free,?_⟩
    intro v inQueue less
    rcases mem_cons.mp inQueue with rfl | later
    · omega
    · have := (pairwise_cons.mp sorted).1 v later
      omega
  · exact choice.apart u listed old

theorem choice_nil (earlier queue : List (Txn κ)) : Choice cfg earlier queue [] where
  listed := fun _ chosen => (not_mem_nil chosen).elim
  blocked := fun _ _ chosen => (not_mem_nil chosen).elim
  apart := fun _ _ chosen => (not_mem_nil chosen).elim

theorem analyse_picks (sorted : Sorted queue) (covers : Covers cfg bits earlier) :
    ∃ ids, analyse cfg bits queue = pick ids queue ∧ Choice cfg earlier queue ids := by
  induction queue generalizing bits earlier with
  | nil => exact ⟨[],rfl,choice_nil _ _⟩
  | cons t rest ih =>
    obtain ⟨above,tail⟩ := pairwise_cons.mp sorted
    obtain ⟨ids,picks,choice⟩ := ih tail (covers.mark t)
    have behind : t.id ∉ ids := by
      intro chosen
      obtain ⟨u,inRest,_⟩ := choice.listed t.id chosen
      have := above u inRest
      omega
    have skips : pick ids (t :: rest) = (t :: (pick ids rest).1,(pick ids rest).2) := by
      simp [pick,activateIn,behind]
    simp only [analyse,check_bits,picks]
    by_cases waits : t.status = .blocked
    · rw [if_pos waits]
      by_cases passed : (check bits (writes cfg t) (reads cfg t)).2 = true
      · rw [if_pos passed]
        refine ⟨t.id :: ids,?_,(choice.cons sorted).add sorted waits (fun u before => covers.apart passed before)⟩
        exact (pick_first sorted ids).symm
      · rw [if_neg passed]
        exact ⟨ids,skips.symm,choice.cons sorted⟩
    · rw [if_neg waits]
      exact ⟨ids,skips.symm,choice.cons sorted⟩

structure Sound (cfg : Config κ) (txns : List (Txn κ)) (s : State κ) : Prop where
  sorted : Sorted s.queue
  ahead : ∀ t, t ∈ s.queue ∨ t ∈ s.pushed → ∀ u ∈ txns.drop s.offset, t.id < u.id
  cx : ∀ h, s.counters.cx h = requested (writes cfg) s.queue h
  cs : ∀ h, s.counters.cs h = requested (reads cfg) s.queue h
  running : ∀ t, t ∈ s.running ↔ t ∈ s.queue ∧ t.status = .active
  logged : ∀ t ∈ s.running, t ∈ s.pushed
  waiting : ∀ p ∈ s.pushed, ∀ t ∈ s.queue, t.id = p.id → t.status = .active
  once : (s.pushed.map Txn.id).Nodup
  apart : ∀ p ∈ s.pushed, ∀ u ∈ s.queue, u.id < p.id → ¬ Conflict cfg u p
  order : s.pushed.Pairwise fun p q => Conflict cfg p q → p.id < q.id

theorem initial_sound (cfg : Config κ) (txns : List (Txn κ)) : Sound cfg txns initial where
  sorted := .nil
  ahead := fun _ listed => by rcases listed with held | held <;> cases held
  cx := fun _ => rfl
  cs := fun _ => rfl
  running := fun t => ⟨fun held => (not_mem_nil held).elim,fun held => (not_mem_nil held.1).elim⟩
  logged := fun _ held => (not_mem_nil held).elim
  waiting := fun _ held => (not_mem_nil held).elim
  once := .nil
  apart := fun _ held => (not_mem_nil held).elim
  order := .nil

theorem requested_append (set : Txn κ → List Nat) (queue more : List (Txn κ)) (h : Nat) :
    requested set (queue ++ more) h = requested set queue h + requested set more h := by
  simp [requested]

theorem requested_map (set : Txn κ → List Nat) (same : ∀ t, set (f t) = set t) (queue : List (Txn κ)) (h : Nat) :
    requested set (queue.map f) h = requested set queue h := by
  simp [requested,Function.comp_def,same]

theorem requested_nonneg (set : Txn κ → List Nat) (queue : List (Txn κ)) (h : Nat) : 0 ≤ requested set queue h := by
  induction queue with
  | nil => exact Int.le_refl 0
  | cons t rest ih =>
    have step : requested set (t :: rest) h = (set t).count h + requested set rest h := by simp [requested]
    omega

theorem requested_pos {set : Txn κ → List Nat} (listed : t ∈ queue) (used : h ∈ set t) : 0 < requested set queue h := by
  obtain ⟨front,back,rfl⟩ := append_of_mem listed
  have split : requested set (front ++ t :: back) h = requested set front h + ((set t).count h + requested set back h) := by
    simp [requested]
  have here := count_pos_iff.mpr used
  have front := requested_nonneg set front h
  have back := requested_nonneg set back h
  omega

theorem requested_erase (sorted : Sorted queue) (listed : t ∈ queue) (set : Txn κ → List Nat) (h : Nat) :
    requested set (queue.filter fun u => u.id != t.id) h = requested set queue h - (set t).count h := by
  induction queue with
  | nil => cases listed
  | cons u rest ih =>
    obtain ⟨above,tail⟩ := pairwise_cons.mp sorted
    have step : ∀ v l, requested set (v :: l) h = (set v).count h + requested set l h := by
      intro v l
      simp [requested]
    rcases mem_cons.mp listed with rfl | later
    · have others : rest.filter (fun u => u.id != t.id) = rest := by
        apply filter_eq_self.mpr
        intro u inRest
        have := above u inRest
        simp
        omega
      rw [filter_cons_of_neg (by simp),others,step]
      ring
    · have other : u.id ≠ t.id := by have := above t later; omega
      rw [filter_cons_of_pos (by simp [other]),step,step,ih tail later]
      ring

theorem conflict_activateIn : Conflict cfg (activateIn ids u) p ↔ Conflict cfg u p := by simp [Conflict,ConflictAt]

theorem mem_pick_queue {ids : List Int} : t ∈ (pick ids queue).1 ↔ ∃ u ∈ queue, activateIn ids u = t := mem_map

theorem mem_pick_pushed {ids : List Int} : t ∈ (pick ids queue).2 ↔ ∃ u ∈ queue, u.id ∈ ids ∧ u.activate = t := by
  simp [pick,and_assoc]

theorem pick_sorted (sorted : Sorted queue) (ids : List Int) : Sorted (pick ids queue).1 ∧ Sorted (pick ids queue).2 := by
  refine ⟨?_,?_⟩
  · exact pairwise_map.mpr (sorted.imp (by simp))
  · exact pairwise_map.mpr ((sorted.filter _).imp (by simp))

theorem Sound.dispatch (sound : Sound cfg txns s) (choice : Choice cfg [] s.queue ids) (blockedTxns : Int) :
    Sound cfg txns (push { s with queue := (pick ids s.queue).1, blockedTxns := blockedTxns } (pick ids s.queue).2) := by
  -- a transaction that was pushed before is not chosen
  have fresh : ∀ p ∈ s.pushed, ∀ t ∈ s.queue, t.id ∈ ids → t.id ≠ p.id := by
    intro p pushed t listed chosen same
    have active := sound.waiting p pushed t listed same
    rw [choice.blocked t listed chosen] at active
    cases active
  have sorted := pick_sorted sound.sorted ids
  refine ⟨sorted.1,?_,?_,?_,?_,?_,?_,?_,?_,?_⟩
  · intro t held u later
    rcases held with queued | pushed
    · obtain ⟨v,listed,rfl⟩ := mem_pick_queue.mp queued
      rw [activateIn_id]
      exact sound.ahead v (.inl listed) u later
    rcases mem_append.mp pushed with old | new
    · exact sound.ahead t (.inr old) u later
    · obtain ⟨v,listed,_,rfl⟩ := mem_pick_pushed.mp new
      exact sound.ahead v (.inl listed) u later
  · intro h
    exact (sound.cx h).trans (requested_map (writes cfg) (writes_activateIn ids) s.queue h).symm
  · intro h
    exact (sound.cs h).trans (requested_map (reads cfg) (reads_activateIn ids) s.queue h).symm
  · intro t
    constructor
    · intro running
      rcases mem_append.mp running with old | new
      · obtain ⟨listed,active⟩ := (sound.running t).mp old
        have kept : t.id ∉ ids := by
          intro chosen
          rw [choice.blocked t listed chosen] at active
          cases active
        exact ⟨mem_pick_queue.mpr ⟨t,listed,if_neg kept⟩,active⟩
      · obtain ⟨u,listed,chosen,rfl⟩ := mem_pick_pushed.mp new
        exact ⟨mem_pick_queue.mpr ⟨u,listed,if_pos chosen⟩,rfl⟩
    intro held
    obtain ⟨queued,active⟩ := held
    obtain ⟨u,listed,rfl⟩ := mem_pick_queue.mp queued
    by_cases chosen : u.id ∈ ids
    · rw [activateIn,if_pos chosen]
      exact mem_append_right _ (mem_pick_pushed.mpr ⟨u,listed,chosen,rfl⟩)
    · rw [activateIn,if_neg chosen] at active ⊢
      exact mem_append_left _ ((sound.running u).mpr ⟨listed,active⟩)
  · refine forall_mem_append.mpr ⟨fun t old => mem_append_left _ (sound.logged t old),fun t new => ?_⟩
    exact mem_append_right _ new
  · intro p pushed t queued same
    obtain ⟨u,listed,rfl⟩ := mem_pick_queue.mp queued
    by_cases chosen : u.id ∈ ids
    · rw [activateIn,if_pos chosen]
      rfl
    rw [activateIn,if_neg chosen] at same ⊢
    rcases mem_append.mp pushed with old | new
    · exact sound.waiting p old u listed same
    · obtain ⟨v,_,chosen',rfl⟩ := mem_pick_pushed.mp new
      exact absurd (same ▸ chosen') chosen
  · have new : ((pick ids s.queue).2.map Txn.id).Nodup := pairwise_map.mpr (sorted.2.imp (fun less => by omega))
    refine map_append ▸ nodup_append.mpr ⟨sound.once,new,?_⟩
    intro i first j second same
    obtain ⟨p,pushed,rfl⟩ := mem_map.mp first
    obtain ⟨q,added,rfl⟩ := mem_map.mp second
    obtain ⟨v,listed,chosen,rfl⟩ := mem_pick_pushed.mp added
    exact fresh p pushed v listed chosen same.symm
  · intro p pushed u queued less conflict
    obtain ⟨v,listed,rfl⟩ := mem_pick_queue.mp queued
    rw [activateIn_id] at less
    rw [conflict_activateIn] at conflict
    rcases mem_append.mp pushed with old | new
    · exact sound.apart p old v listed less conflict
    · obtain ⟨w,inQueue,chosen,rfl⟩ := mem_pick_pushed.mp new
      exact (choice.apart w inQueue chosen).2 v listed less conflict
  refine pairwise_append.mpr ⟨sound.order,sorted.2.imp (by intro p q less _; exact less),?_⟩
  intro p pushed q added conflict
  obtain ⟨v,listed,chosen,rfl⟩ := mem_pick_pushed.mp added
  have different := fresh p pushed v listed chosen
  have notLess : ¬ v.id < p.id := fun less => sound.apart p pushed v listed less conflict.symm
  rw [activate_id]
  omega

theorem Sound.dispatchHead (sound : Sound cfg txns s) : Sound cfg txns (dispatchHead s) := by
  unfold Vll.dispatchHead
  split
  · exact sound
  rename_i t rest queue
  split
  next waits =>
    have sorted := sound.sorted
    rw [queue] at sorted
    have choice : Choice cfg [] s.queue [t.id] := by
      rw [queue]
      exact (choice_nil [] (t :: rest)).add sorted waits (fun _ held => (not_mem_nil held).elim)
    have after := sound.dispatch choice (s.blockedTxns - 1)
    rw [queue,pick_first sorted,pick_none] at after
    exact after
  · exact sound

theorem Sound.analyse (sound : Sound cfg txns s) (blockedTxns : Int) :
    Sound cfg txns (push { s with queue := (analyse cfg ⟨fun _ => false,fun _ => false⟩ s.queue).1, blockedTxns := blockedTxns }
      (analyse cfg ⟨fun _ => false,fun _ => false⟩ s.queue).2) := by
  have covers : Covers cfg ⟨fun _ => false,fun _ => false⟩ ([] : List (Txn κ)) := fun _ held => (not_mem_nil held).elim
  obtain ⟨_,picks,choice⟩ := analyse_picks sound.sorted covers
  rw [picks]
  exact sound.dispatch choice blockedTxns

theorem Sound.finish (sound : Sound cfg txns s) (running : t ∈ s.running) : Sound cfg txns (finish cfg s t) := by
  obtain ⟨listed,_⟩ := (sound.running t).mp running
  have smaller : ∀ u, u ∈ s.queue.filter (fun u => u.id != t.id) → u ∈ s.queue := fun u held => (mem_filter.mp held).1
  apply Sound.dispatchHead
  refine ⟨sound.sorted.filter _,?_,?_,?_,?_,?_,?_,sound.once,?_,sound.order⟩
  · intro u held
    rcases held with queued | pushed
    · exact sound.ahead u (.inl (smaller u queued))
    · exact sound.ahead u (.inr pushed)
  · intro h
    rw [release_counters,requested_erase sound.sorted listed,← sound.cx h]
  · intro h
    rw [release_counters,requested_erase sound.sorted listed,← sound.cs h]
  · intro u
    rw [mem_filter,mem_filter,sound.running u]
    constructor
    · intro held; exact ⟨⟨held.1.1,held.2⟩,held.1.2⟩
    · intro held; exact ⟨⟨held.1.1,held.2⟩,held.1.2⟩
  · intro u held
    exact sound.logged u (mem_filter.mp held).1
  · intro p pushed u held
    exact sound.waiting p pushed u (smaller u held)
  · intro p pushed u held
    exact sound.apart p pushed u (smaller u held)

theorem insertTxn_last {queue : List (Txn κ)} (last : ∀ u ∈ queue, u.id < t.id) : insertTxn t queue = queue ++ [t] := by
  induction queue with
  | nil => rfl
  | cons u rest ih =>
    have less := last u mem_cons_self
    rw [insertTxn,if_neg (by omega),if_neg (by omega),ih (fun v later => last v (mem_cons_of_mem u later))]
    rfl

theorem drop_offset {txns : List (Txn κ)} (next : txns[k]? = some t) : txns.drop k = t :: txns.drop (k + 1) := by
  obtain ⟨inRange,rfl⟩ := List.getElem?_eq_some_iff.mp next
  exact drop_eq_getElem_cons inRange

theorem Sound.granted (sound : Sound cfg txns s) (free : Free s.counters (writes cfg t) (reads cfg t)) (listed : u ∈ s.queue) :
    ¬ Conflict cfg u t := by
  obtain ⟨writable,readable⟩ := free
  rintro ⟨h,⟨wu,wt | rt⟩ | ⟨ru,wt⟩⟩
  · have granted := (writable h wt).1
    have other := requested_pos listed wu
    have own := count_pos_iff.mpr wt
    rw [sound.cx h] at granted
    omega
  · have granted := readable h rt
    have other := requested_pos listed wu
    rw [sound.cx h] at granted
    omega
  have granted := (writable h wt).2
  have other := requested_pos listed ru
  rw [sound.cs h] at granted
  omega

-- One that was granted is queued like a blocked one and then dispatched.
theorem Sound.enqueue (sound : Sound cfg txns s) (increasing : Sorted txns) (next : txns[s.offset]? = some t)
    (waits : status ≠ .active) (blockedTxns : Int) :
    Sound cfg txns ⟨s.offset + 1,s.queue ++ [{ t with status := status }],
      ⟨fun h => s.counters.cx h + (writes cfg t).count h,fun h => s.counters.cs h + (reads cfg t).count h⟩,blockedTxns,
      s.running,s.pushed⟩ := by
  have rest := drop_offset next
  have last : ∀ u, u ∈ s.queue ∨ u ∈ s.pushed → u.id < t.id := fun u held =>
    sound.ahead u held t (by rw [rest]; exact mem_cons_self)
  have later := increasing.drop (i := s.offset)
  rw [rest] at later
  have queued : ∀ v ∈ s.queue ++ [{ t with status := status }], v ∈ s.queue ∨ v = { t with status := status } := by simp
  refine ⟨?_,?_,?_,?_,?_,sound.logged,?_,sound.once,?_,sound.order⟩
  · refine pairwise_append.mpr ⟨sound.sorted,pairwise_singleton _ _,?_⟩
    intro u listed v same
    rw [mem_singleton.mp same]
    exact last u (.inl listed)
  · intro v held u mem
    have beyond : u ∈ txns.drop s.offset := by
      rw [rest]
      exact mem_cons_of_mem t mem
    rcases held with listed | pushed
    · rcases queued v listed with old | rfl
      · exact sound.ahead v (.inl old) u beyond
      · exact (pairwise_cons.mp later).1 u mem
    · exact sound.ahead v (.inr pushed) u beyond
  · intro h
    rw [requested_append,← sound.cx h]
    simp [requested,writes]
  · intro h
    rw [requested_append,← sound.cs h]
    simp [requested,reads]
  · intro v
    rw [sound.running v,mem_append,mem_singleton,or_and_right]
    refine (or_iff_left ?_).symm
    rintro ⟨rfl,active⟩
    exact waits active
  · intro p pushed v listed same
    rcases queued v listed with old | rfl
    · exact sound.waiting p pushed v old same
    · exact absurd same.symm (last p (.inr pushed)).ne
  · intro p pushed u listed less
    rcases queued u listed with old | rfl
    · exact sound.apart p pushed u old less
    · exact absurd less (last p (.inr pushed)).asymm

theorem Sound.arrive (sound : Sound cfg txns s) (increasing : Sorted txns) (next : txns[s.offset]? = some t) :
    Sound cfg txns (arrive cfg s t) := by
  have last : ∀ u ∈ s.queue, u.id < t.id := fun u listed =>
    sound.ahead u (.inl listed) t (by rw [drop_offset next]; exact mem_cons_self)
  have placed : insertTxn { t with status := (request s.counters t.status (writes cfg t) (reads cfg t)).2 } s.queue =
      s.queue ++ [{ t with status := (request s.counters t.status (writes cfg t) (reads cfg t)).2 }] := insertTxn_last last
  simp only [Vll.arrive,request_counters,placed]
  split
  next active =>
    have queued := sound.enqueue increasing next (show Status.blocked ≠ .active from nofun) s.blockedTxns
    have only : ∀ u ∈ s.queue ++ [{ t with status := .blocked }], u.id ∈ [t.id] → u = { t with status := .blocked } :=
      fun u listed chosen => queued.sorted.unique listed (by simp) (mem_singleton.mp chosen)
    have choice : Choice cfg [] (s.queue ++ [{ t with status := .blocked }]) [t.id] := by
      refine ⟨by simp,fun u listed chosen => by rw [only u listed chosen],fun u listed chosen => ⟨nofun,?_⟩⟩
      rw [only u listed chosen]
      intro v inQueue less
      rcases mem_append.mp inQueue with old | new
      · exact sound.granted ((request_status s.counters t.status (writes cfg t) (reads cfg t)).2 (by rw [active]; decide)).1 old
      · cases mem_singleton.mp new
        exact absurd less (Int.lt_irrefl _)
    have after := queued.dispatch choice s.blockedTxns
    dsimp only at after
    rw [pick_last (t := { t with status := .blocked }) fun u listed => (last u listed).ne] at after
    rw [active]
    exact after
  next waits =>
    exact sound.enqueue increasing next waits (s.blockedTxns + 1)

theorem Sound.step (sound : Sound cfg txns s) (increasing : Sorted txns) (taken : step cfg txns s a = some u) : Sound cfg txns u := by
  cases a with
  | done id =>
    obtain ⟨t,got,rfl⟩ := Option.map_eq_some_iff.mp taken
    exact sound.finish (mem_of_find?_eq_some got)
  | arrive =>
    simp only [Vll.step,Option.ite_none_right_eq_some] at taken
    obtain ⟨t,next,rfl⟩ := Option.map_eq_some_iff.mp taken.2
    exact sound.arrive increasing next
  | analyse =>
    simp only [Vll.step,Option.ite_none_left_eq_some,Option.some.injEq] at taken
    obtain ⟨_,rfl⟩ := taken
    exact sound.analyse _

theorem reached_sound (increasing : Sorted txns) (reached : (machine cfg txns).Reached allow s) : Sound cfg txns s := by
  apply reached.invariant (Sound cfg txns) (initial_sound cfg txns)
  intro s a t _ sound _ taken
  exact sound.step increasing taken

-- Transactions that are with the workers together do not conflict, conflicting ones go to
-- the workers in the order of their ids, and the counters count the requests of the queue.
theorem running_never_conflict (increasing : Sorted txns) (reached : (machine cfg txns).Reached Machine.anyStep s) :
    (∀ t ∈ s.running, ∀ u ∈ s.running, t.id ≠ u.id → ∀ h, ¬ ConflictAt cfg h t u) ∧
    s.pushed.Pairwise (fun p q => Conflict cfg p q → p.id < q.id) ∧
    ∀ h, s.counters.cx h = requested (writes cfg) s.queue h ∧ s.counters.cs h = requested (reads cfg) s.queue h := by
  have sound := reached_sound increasing reached
  refine ⟨?_,sound.order,fun h => ⟨sound.cx h,sound.cs h⟩⟩
  intro t first u second different h conflict
  have together : ∀ v ∈ s.running, ∀ w ∈ s.running, v.id < w.id → ¬ Conflict cfg v w := fun v early w late less =>
    sound.apart w (sound.logged w late) v ((sound.running v).mp early).1 less
  rcases Int.lt_or_gt_of_ne different with less | more
  · exact together t first u second less ⟨h,conflict⟩
  · exact together u second t first more (Conflict.symm ⟨h,conflict⟩)

def oneNode : Config Nat := ⟨fun k => k % 3,fun _ => 0,0⟩

def sharedReads : List (Txn Nat) := [⟨1,[0],[1],.active⟩,⟨2,[3],[2],.active⟩,⟨3,[],[6],.active⟩]

theorem running_never_conflict_shared : ∃ s, (machine oneNode sharedReads).Reached Machine.anyStep s ∧
    s.running.map Txn.id = [2] ∧ s.queue.map Txn.id = [2,3] ∧
    ∀ h, s.counters.cx h = requested (writes oneNode) s.queue h ∧ s.counters.cs h = requested (reads oneNode) s.queue h := by
  obtain ⟨s,reached,running,queue⟩ := Machine.reached_of_run (machine oneNode sharedReads) Machine.anyStep
    (fun s => s.running.map Txn.id = [2] ∧ s.queue.map Txn.id = [2,3]) [.arrive,.arrive,.arrive,.done 1] (by decide +kernel)
  have increasing : Sorted sharedReads := by simp [Sorted,sharedReads]
  exact ⟨s,reached,running,queue,(running_never_conflict increasing reached).2.2⟩

end DbExp.Calvin.Vll
