import DbExp.Aria.CalvinLocks

namespace DbExp.Aria.Calvin
open Function List
set_option linter.unusedSectionVars false
open Serial Tally

section
variable {κ ν : Type} [DecidableEq κ] {b : Batch κ ν} {a : Tasks κ ν}

def Batch.before (b : Batch κ ν) (i : Nat) : κ → ν := Calvin.serial (b.txns.take i) b.db

theorem before_succ (here : b.txns[i]? = some t) : b.before (i+1) = t.execute (b.before i) := by
  unfold Batch.before Calvin.serial
  rw [take_add_one,here,foldl_append]
  rfl

theorem slot_some (here : b.txns[i]? = some t) : b.slot i p = t.reads[p]? := by
  unfold Batch.slot
  rw [here]; rfl

theorem effects_keys (t : Txn κ ν) (values : List ν) : ((t.effects values).map Prod.fst).Sublist (t.reads.map Slot.key) := by
  unfold Txn.effects
  generalize t.reads = reads
  induction reads generalizing values with
  | nil => simp
  | cons x rest ih =>
    cases values with
    | nil => simp
    | cons v values =>
      rw [zip_cons_cons,filterMap_cons,map_cons]
      cases writes : x.write with
      | false => simpa [writes] using (ih values).trans (sublist_cons_self _ _)
      | true => simpa [writes] using (ih values).cons_cons x.key

theorem effects_mem {t : Txn κ ν} {p : Nat} {x : Slot κ} {values : List ν} (slot : t.reads[p]? = some x)
    (writes : x.write = true) (value : values[p]? = some v) :
    (x.key,v) ∈ t.effects values := by
  refine mem_filterMap.mpr ⟨(x,v),?_,by simp [writes]⟩
  apply mem_of_getElem? (i := p)
  rw [List.getElem?_zip_eq_some]
  exact ⟨slot,value⟩

theorem before_slot (got : b.slot i p = some x) (writes : x.write = true) (here : b.txns[i]? = some t)
    (value : (t.outcome (t.observe (b.before i)))[p]? = some v) : b.before (i+1) x.key = v := by
  rw [slot_some here] at got
  rw [before_succ here,Txn.execute]
  apply install_mem
  · exact (effects_keys t _).nodup (b.once t (mem_of_getElem? here))
  · exact effects_mem got writes value

def Writes (b : Batch κ ν) (i : Nat) (k : κ) : Prop := ∃ p x, b.slot i p = some x ∧ x.key = k ∧ x.write = true

theorem before_unwritten (other : ¬ Writes b i k) : b.before (i+1) k = b.before i k := by
  cases here : b.txns[i]? with
  | none =>
    unfold Batch.before
    rw [take_add_one,here]
    simp
  | some t =>
    rw [before_succ here,Txn.execute]
    apply install_other
    intro inside
    obtain ⟨⟨_,_⟩,mem,same⟩ := mem_map.mp inside
    obtain ⟨⟨x,_⟩,pair,kept⟩ := mem_filterMap.mp mem
    obtain ⟨p,there⟩ := mem_iff_getElem?.mp pair
    have slot := (List.getElem?_zip_eq_some.mp there).1
    cases writes : x.write with
    | false => simp [writes] at kept
    | true =>
      simp only [writes,if_true,Option.some.injEq,Prod.mk.injEq] at kept
      exact other ⟨p,x,by rw [slot_some here]; exact slot,kept.1.trans same,writes⟩

theorem before_between (less : i ≤ m) (others : ∀ j, i ≤ j → j < m → ¬ Writes b j k) : b.before m k = b.before i k := by
  induction m with
  | zero =>
    obtain rfl : i = 0 := by omega
    rfl
  | succ m ih =>
    by_cases same : i = m + 1
    · rw [same]
    · rw [before_unwritten (others m (by omega) (by omega))]
      exact ih (by omega) fun j above below => others j above (by omega)

def Cut (b : Batch κ ν) (a : Tasks κ ν) (k : κ) (m : Nat) : Prop :=
  ∀ i p x, b.slot i p = some x → x.key = k → x.write = true → ((stageOf b a i x).wrote p ↔ i < m)

def Current (b : Batch κ ν) (a : Tasks κ ν) : Prop := ∀ k m, Cut b a k m → a.shared.db k = b.before m k

theorem granted_of_wrote {stage : Stage ν} (wrote : stage.wrote p) : stage.granted p := by
  cases stage <;> trivial

theorem wrote_of_released {stage : Stage ν} (released : stage.released p) : stage.wrote p := by
  cases stage <;> trivial

theorem Locked.cut (locked : Locked b a) (got : b.slot i p = some x) (granted : (stageOf b a i x).granted p)
    (unwritten : ¬ (stageOf b a i x).wrote p) : Cut b a x.key i := by
  intro j q y second same writes
  constructor
  · intro wrote
    rcases Nat.lt_trichotomy j i with less | rfl | less
    · exact less
    · obtain rfl := slot_unique got second same.symm
      cases got.symm.trans second
      exact absurd wrote unwritten
    · have released := locked.order i j p q x y less got second same.symm (.inr writes) (granted_of_wrote wrote)
      exact absurd (wrote_of_released released) unwritten
  · intro less
    exact wrote_of_released (locked.order j i q p y x less second got same (.inl writes) granted)

section
variable {shared : Shared κ ν} {next : Stage ν}

theorem Current.quiet (current : Current b a) (locked : Locked b a) (done : Advance b a.shared c m i (a.tasks (c,m,i)) shared next)
    (same : shared.db = a.shared.db) (unwritten : ∀ p rest, a.tasks (c,m,i) ≠ .writing (p :: rest)) :
    Current b ⟨shared,update a.tasks (c,m,i) next⟩ := by
  intro k l cut
  rw [same]
  apply current k l
  intro j q y got key writes
  rw [← cut j q y got key writes,wrote_step done (locked.shape c m i) got writes]
  simp [unwritten]

theorem Current.write (current : Current b a) (locked : Locked b a) (here : a.tasks (c,m,i) = .writing (p :: rest))
    (got : b.slot i p = some x) (stored : (a.shared.stores (c,i)).values[p]? = some value) (right : value = b.before (i+1) x.key) :
    Current b ⟨writeSlot x value a.shared,update a.tasks (c,m,i) (.writing rest)⟩ := by
  have done : Advance b a.shared c m i (a.tasks (c,m,i)) (writeSlot x value a.shared) (.writing rest) := by
    rw [here]
    exact .write got stored
  have shape := locked.shape c m i
  have mem : p ∈ b.modeSlots true c m i := by
    rw [here] at shape
    exact shape.2.2.subset (by simp)
  obtain ⟨inside,_,again,mode⟩ := mem_modeSlots.mp mem
  cases got.symm.trans again
  have event : ∀ {j q y}, b.slot j q = some y → y.write = true →
      ((stageOf b ⟨writeSlot x value a.shared,update a.tasks (c,m,i) (.writing rest)⟩ j y).wrote q ↔
        (stageOf b a j y).wrote q ∨ j = i ∧ q = p) := by
    intro j q y second writes
    rw [wrote_step done shape second writes,here]
    simp [eq_comm]
  intro k l cut
  change update a.shared.db x.key value k = _
  by_cases same : k = x.key
  · subst same
    have less : i < l := (cut i p x got rfl mode).mp ((event got mode).mpr (.inr ⟨rfl,rfl⟩))
    rw [update_self,right]
    refine (before_between less ?_).symm
    rintro j above below ⟨q,y,second,key,writes⟩
    rcases (event second writes).mp ((cut j q y second key writes).mpr below) with wrote | ⟨_,_⟩
    · have released := locked.order i j p q x y above got second key.symm (.inl mode) (granted_of_wrote wrote)
      rw [stage_mine inside got,here] at released
      exact released
    · omega
  rw [update_of_ne same]
  apply current k l
  intro j q y second key writes
  rw [← cut j q y second key writes,event second writes]
  refine ⟨.inl,fun wrote => wrote.resolve_right ?_⟩
  rintro ⟨rfl,rfl⟩
  cases got.symm.trans second
  exact same key.symm

end
end
end DbExp.Aria.Calvin
