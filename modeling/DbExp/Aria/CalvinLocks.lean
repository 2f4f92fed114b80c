import DbExp.Aria.CalvinTasks

namespace DbExp.Aria.Calvin
open Function
set_option linter.unusedSectionVars false
open Tally

section
variable {κ ν : Type} [DecidableEq κ] {b : Batch κ ν} {a : Tasks κ ν}

theorem slot_txn (got : b.slot i p = some x) : i < b.txns.length := by
  obtain ⟨_,here,_⟩ := Option.bind_eq_some_iff.mp got
  exact (List.getElem?_eq_some_iff.mp here).1

theorem slot_unique (one : b.slot i p = some x) (two : b.slot i q = some y) (same : x.key = y.key) : p = q := by
  obtain ⟨t,here,first⟩ := Option.bind_eq_some_iff.mp one
  obtain ⟨_,there,second⟩ := Option.bind_eq_some_iff.mp two
  cases here.symm.trans there
  have once := b.once t (List.mem_of_getElem? here)
  have left : (t.reads.map Slot.key)[p]? = some x.key := by rw [List.getElem?_map,first]; rfl
  have right : (t.reads.map Slot.key)[q]? = some x.key := by rw [List.getElem?_map,second,same]; rfl
  obtain ⟨_,atP⟩ := List.getElem?_eq_some_iff.mp left
  obtain ⟨_,atQ⟩ := List.getElem?_eq_some_iff.mp right
  exact (List.Nodup.getElem_inj_iff once).mp (atP.trans atQ.symm)

def Holds (b : Batch κ ν) (a : Tasks κ ν) (i : Nat) (k : κ) (write : Bool) : Prop :=
  ∃ p x, b.slot i p = some x ∧ x.key = k ∧ x.write = write ∧ (stageOf b a i x).granted p ∧ ¬ (stageOf b a i x).released p

def InOrder (b : Batch κ ν) (a : Tasks κ ν) : Prop :=
  ∀ i j p q x y, i < j → b.slot i p = some x → b.slot j q = some y → x.key = y.key → x.write = true ∨ y.write = true →
    (stageOf b a j y).granted q → (stageOf b a i x).released p

def Begun (b : Batch κ ν) (c m i : Nat) (stage : Stage ν) : Prop := stage.Locking → ∃ q ∈ b.slots c m i, stage.granted q

structure Locked (b : Batch κ ν) (a : Tasks κ ν) : Prop where
  shape : ∀ c m i, Shape b c m i (a.tasks (c,m,i))
  turn : ∀ c m i j, j < i → Begun b c m i (a.tasks (c,m,i)) → ¬ (a.tasks (c,m,j)).Locking
  readers : ∀ k, (a.shared.locks k).readers = tally (Finset.range b.txns.length) fun i => Holds b a i k false
  writer : ∀ k, (a.shared.locks k).writer = true ↔ ∃ i, Holds b a i k true
  order : InOrder b a

theorem initial_locked (b : Batch κ ν) : Locked b (initialTasks b) := by
  have waiting : ∀ {i p x}, b.slot i p = some x → ¬ (stageOf b (initialTasks b) i x).granted p := by
    intro i p x got granted
    exact granted (mem_slots.mpr ⟨x,got,rfl,rfl⟩)
  have free : ∀ i k write, ¬ Holds b (initialTasks b) i k write := by
    rintro i k write ⟨p,x,got,_,_,granted,_⟩
    exact waiting got granted
  refine ⟨fun c m i => List.suffix_refl _,?_,?_,?_,?_⟩
  · intro c m i j _ begun
    obtain ⟨q,mem,granted⟩ := begun trivial
    exact absurd mem granted
  · intro k
    exact (tally_eq_zero.mpr fun i _ => free i k false).symm
  · intro k
    refine ⟨fun locked => absurd locked (by simp [initialTasks,initialShared]),?_⟩
    rintro ⟨i,holds⟩
    exact absurd holds (free i k true)
  · intro i j p q x y _ _ second _ _ granted
    exact absurd granted (waiting second)

theorem Holds.member (holds : Holds b a i k write) : i ∈ Finset.range b.txns.length := by
  obtain ⟨_,_,got,_⟩ := holds
  exact Finset.mem_range.mpr (slot_txn got)

theorem holds_iff (got : b.slot i p = some x) :
    Holds b a i x.key write ↔ x.write = write ∧ (stageOf b a i x).granted p ∧ ¬ (stageOf b a i x).released p := by
  constructor
  · rintro ⟨_,_,other,same,mode,held⟩
    obtain rfl := slot_unique got other same.symm
    cases got.symm.trans other
    exact ⟨mode,held⟩
  · rintro ⟨mode,held⟩
    exact ⟨p,x,got,rfl,mode,held⟩

theorem Locked.exclusive (locked : Locked b a) (one : Holds b a i k true) (two : Holds b a j k write) : i = j := by
  obtain ⟨p,x,first,keyX,modeX,grantedX,unreleasedX⟩ := one
  obtain ⟨q,y,second,keyY,_,grantedY,unreleasedY⟩ := two
  have same : x.key = y.key := keyX.trans keyY.symm
  rcases Nat.lt_trichotomy i j with less | equal | less
  · exact absurd (locked.order i j p q x y less first second same (.inl modeX) grantedY) unreleasedX
  · exact equal
  · exact absurd (locked.order j i q p y x less second first same.symm (.inr modeX) grantedX) unreleasedY

theorem Locked.free (locked : Locked b a) (taken : (a.shared.locks k).take write = some lock)
    (conflict : write = true ∨ other = true) : ¬ Holds b a i k other := by
  intro holds
  cases other with
  | true =>
    have writer := (locked.writer k).mpr ⟨i,holds⟩
    cases write <;> simp [Lock.take,Lock.readLock,Lock.writeLock,writer] at taken
  | false =>
    obtain rfl := conflict.resolve_right (by decide)
    have readers : (a.shared.locks k).readers = 0 := by
      by_contra some
      simp [Lock.take,Lock.writeLock,some] at taken
    rw [locked.readers k] at readers
    exact tally_eq_zero.mp readers i holds.member holds

section
variable {shared : Shared κ ν} {next : Stage ν}

theorem take_word {l word : Lock} (taken : l.take write = some word) :
    word.readers = (l.readers + if write then 0 else 1) ∧ word.writer = (l.writer || write) := by
  cases write
  · change l.readLock = some word at taken
    unfold Lock.readLock at taken
    split at taken
    · cases taken
    · cases taken; simp
  change l.writeLock = some word at taken
  unfold Lock.writeLock at taken
  split at taken
  · cases taken
  · cases taken; simp

theorem release_word (l : Lock) (write : Bool) :
    (l.release write).readers = (l.readers - if write then 0 else 1) ∧ (l.release write).writer = (l.writer && !write) := by
  cases write <;> simp [Lock.release,Lock.readLockRelease,Lock.writeLockRelease]

theorem stage_mine (mem : p ∈ b.slots c m i) (got : b.slot i p = some x) : stageOf b a i x = a.tasks (c,m,i) := by
  obtain ⟨_,same,node,manager⟩ := mem_slots.mp mem
  cases got.symm.trans same
  rw [stageOf,node,manager]

section
variable (locked : Locked b a)
include locked

section
variable (done : Advance b a.shared c m i (a.tasks (c,m,i)) shared next)
include done

theorem Locked.turn_step
    (turn : (a.tasks (c,m,i)).Locking → ∀ j, j < i → ¬ (a.tasks (c,m,j)).Locking) (d n j l : Nat) (less : l < j)
    (begun : Begun b d n j (update a.tasks (c,m,i) next (d,n,j))) :
    ¬ (update a.tasks (c,m,i) next (d,n,l)).Locking := by
  have onward : next.Locking → (a.tasks (c,m,i)).Locking := by
    generalize a.tasks (c,m,i) = stage at done
    intro still
    cases done <;> trivial
  have before : ¬ (a.tasks (d,n,l)).Locking := by
    by_cases mine : (d,n,j) = (c,m,i)
    · have parts : d = c ∧ n = m ∧ j = i := by simpa using mine
      obtain ⟨rfl,rfl,rfl⟩ := parts
      by_cases waiting : (a.tasks (d,n,j)).Locking
      · exact turn waiting l less
      · exact locked.turn d n j l less fun still => absurd still waiting
    · rw [update_of_ne mine] at begun
      exact locked.turn d n j l less begun
  by_cases mine : (d,n,l) = (c,m,i)
  · rw [mine,update_self]
    rw [mine] at before
    exact fun still => before (onward still)
  · rwa [update_of_ne mine]

theorem Locked.shape_step (d n j : Nat) :
    Shape b d n j (update a.tasks (c,m,i) next (d,n,j)) := by
  by_cases mine : (d,n,j) = (c,m,i)
  · cases mine
    rw [update_self]
    exact advance_shape done (locked.shape c m i)
  · rw [update_of_ne mine]
    exact locked.shape d n j

theorem Locked.order_step
    (fresh : ∀ p x rest, a.tasks (c,m,i) = .locking (p :: rest) → b.slot i p = some x →
      ∀ j, j < i → ∀ q y, b.slot j q = some y → y.key = x.key → y.write = true ∨ x.write = true → (stageOf b a j y).released q) :
    InOrder b ⟨shared,update a.tasks (c,m,i) next⟩ := by
  intro j l p q x y less first second same conflict granted
  have shape := locked.shape c m i
  apply (released_step done shape first).mpr
  left
  rcases (granted_step done shape second).mp granted with before | ⟨rfl,rest,here⟩
  · exact locked.order j l p q x y less first second same conflict before
  · exact fresh q y rest here second j less p x first same conflict

theorem Locked.quiet
    (turn : (a.tasks (c,m,i)).Locking → ∀ j, j < i → ¬ (a.tasks (c,m,j)).Locking) (same : shared.locks = a.shared.locks)
    (taken : ∀ p rest, a.tasks (c,m,i) ≠ .locking (p :: rest)) (released : ∀ p rest, a.tasks (c,m,i) ≠ .releasing (p :: rest)) :
    Locked b ⟨shared,update a.tasks (c,m,i) next⟩ := by
  have shape := locked.shape c m i
  have holds : ∀ j k write, Holds b a j k write ↔ Holds b ⟨shared,update a.tasks (c,m,i) next⟩ j k write := by
    intro j k write
    refine exists_congr fun p => exists_congr fun x => and_congr_right fun got => ?_
    rw [granted_step done shape got,released_step done shape got]
    simp [taken,released]
  refine ⟨locked.shape_step done,locked.turn_step done turn,?_,?_,?_⟩
  · intro k
    rw [same,locked.readers k]
    exact tally_congr fun j _ => holds j k false
  · intro k
    rw [same,locked.writer k]
    exact exists_congr fun j => holds j k true
  · exact locked.order_step done fun p x rest here => absurd here (taken p rest)

theorem Locked.holds_taken
    (here : a.tasks (c,m,i) = .locking (p :: rest)) (got : b.slot i p = some x) (j : Nat) (k : κ) (write : Bool) :
    Holds b ⟨shared,update a.tasks (c,m,i) next⟩ j k write ↔ Holds b a j k write ∨ j = i ∧ k = x.key ∧ write = x.write := by
  have shape := locked.shape c m i
  have mem : p ∈ b.slots c m i := by
    rw [here] at shape
    exact shape.subset (by simp)
  constructor
  · rintro ⟨q,y,second,key,mode,granted,held⟩
    have held := fun before => held ((released_step done shape second).mpr (.inl before))
    rcases (granted_step done shape second).mp granted with before | ⟨rfl,others,same⟩
    · exact .inl ⟨q,y,second,key,mode,before,held⟩
    rw [here] at same
    cases same
    cases got.symm.trans second
    exact .inr ⟨rfl,key.symm,mode.symm⟩
  rintro (⟨q,y,second,key,mode,granted,held⟩ | ⟨rfl,rfl,rfl⟩)
  · refine ⟨q,y,second,key,mode,(granted_step done shape second).mpr (.inl granted),fun after => held ?_⟩
    refine ((released_step done shape second).mp after).resolve_right ?_
    rw [here]
    simp
  refine ⟨p,x,got,rfl,rfl,(granted_step done shape got).mpr (.inr ⟨rfl,rest,here⟩),fun after => ?_⟩
  rcases (released_step done shape got).mp after with before | ⟨_,others,same⟩
  · rw [stage_mine mem got,here] at before
    exact before
  · rw [here] at same
    cases same

theorem Locked.holds_released
    (here : a.tasks (c,m,i) = .releasing (p :: rest)) (got : b.slot i p = some x) (j : Nat) (k : κ) (write : Bool) :
    Holds b ⟨shared,update a.tasks (c,m,i) next⟩ j k write ↔ Holds b a j k write ∧ ¬ (j = i ∧ k = x.key) := by
  have shape := locked.shape c m i
  have still : ∀ {q y}, b.slot j q = some y →
      ((stageOf b ⟨shared,update a.tasks (c,m,i) next⟩ j y).granted q ↔ (stageOf b a j y).granted q) := by
    intro q y second
    rw [granted_step done shape second,here]
    simp
  constructor
  · rintro ⟨q,y,second,key,mode,granted,held⟩
    refine ⟨⟨q,y,second,key,mode,(still second).mp granted,fun before => held ((released_step done shape second).mpr (.inl before))⟩,?_⟩
    rintro ⟨rfl,rfl⟩
    obtain rfl := slot_unique second got key
    exact held ((released_step done shape second).mpr (.inr ⟨rfl,rest,here⟩))
  rintro ⟨⟨q,y,second,key,mode,granted,held⟩,other⟩
  refine ⟨q,y,second,key,mode,(still second).mpr granted,fun after => ?_⟩
  rcases (released_step done shape second).mp after with before | ⟨rfl,_,same⟩
  · exact held before
  rw [here] at same
  cases same
  cases got.symm.trans second
  exact other ⟨rfl,key.symm⟩

end

theorem Locked.fresh (turn : ∀ j, j < i → ¬ (a.tasks (c,m,j)).Locking) (mem : p ∈ b.slots c m i)
    (got : b.slot i p = some x) (taken : (a.shared.locks x.key).take x.write = some lock) (j : Nat) (less : j < i) (q : Nat) (y : Slot κ)
    (second : b.slot j q = some y) (same : y.key = x.key) (conflict : y.write = true ∨ x.write = true) : (stageOf b a j y).released q := by
  obtain ⟨_,again,here,mine⟩ := mem_slots.mp mem
  cases got.symm.trans again
  have passed : (stageOf b a j y).granted q := by
    have begun := turn j less
    rw [stageOf,same,here,mine]
    generalize a.tasks (c,m,j) = stage at begun
    cases stage <;> first | exact absurd trivial begun | trivial
  by_contra held
  apply locked.free taken conflict.symm
  rw [← same]
  exact (holds_iff second).mpr ⟨rfl,passed,held⟩

theorem Locked.lock (here : a.tasks (c,m,i) = .locking (p :: rest)) (got : b.slot i p = some x)
    (taken : (a.shared.locks x.key).take x.write = some word)
    (turn : (a.tasks (c,m,i)).Locking → ∀ j, j < i → ¬ (a.tasks (c,m,j)).Locking) :
    Locked b ⟨{a.shared with locks := update a.shared.locks x.key word},update a.tasks (c,m,i) (.locking rest)⟩ := by
  have done : Advance b a.shared c m i (a.tasks (c,m,i)) {a.shared with locks := update a.shared.locks x.key word} (.locking rest) := by
    rw [here]
    exact .lock got taken
  have mem : p ∈ b.slots c m i := by
    have shape := locked.shape c m i
    rw [here] at shape
    exact shape.subset (by simp)
  have holds := locked.holds_taken done here got
  obtain ⟨readers,writer⟩ := take_word taken
  have waiting : ∀ write, ¬ Holds b a i x.key write := by
    intro write held
    have granted := ((holds_iff got).mp held).2.1
    rw [stage_mine mem got,here] at granted
    exact granted (by simp)
  refine ⟨locked.shape_step done,locked.turn_step done turn,?_,?_,?_⟩
  · intro k
    by_cases same : k = x.key
    · subst same
      simp only [update_self,readers,locked.readers x.key]
      cases mode : x.write with
      | true =>
        rw [if_pos rfl,Nat.add_zero]
        exact tally_congr fun j _ => by rw [holds]; simp [mode]
      | false =>
        refine (tally_gain (Finset.mem_range.mpr (slot_txn got)) (waiting false) ?_ ?_).symm
        · exact (holds i x.key false).mpr (.inr ⟨rfl,rfl,mode.symm⟩)
        · intro j _ apart
          rw [holds]
          simp [apart]
    · simp only [update_of_ne same,locked.readers k]
      exact tally_congr fun j _ => by rw [holds]; simp [same]
  · intro k
    simp only [holds]
    by_cases same : k = x.key
    · subst same
      rw [update_self,writer,Bool.or_eq_true,locked.writer x.key]
      cases mode : x.write <;> simp
    · simp only [update_of_ne same,locked.writer k,same,false_and,and_false,or_false]
  apply locked.order_step done
  intro q y others same second
  rw [here] at same
  cases same
  cases got.symm.trans second
  exact locked.fresh (turn (by rw [here]; trivial)) mem got taken

theorem Locked.release (here : a.tasks (c,m,i) = .releasing (p :: rest)) (got : b.slot i p = some x) :
    Locked b ⟨releaseSlot x a.shared,update a.tasks (c,m,i) (.releasing rest)⟩ := by
  have done : Advance b a.shared c m i (a.tasks (c,m,i)) (releaseSlot x a.shared) (.releasing rest) := by
    rw [here]
    exact .release got
  have shape := locked.shape c m i
  have mem : p ∈ b.slots c m i := by
    rw [here] at shape
    rcases List.mem_append.mp (shape.2.subset List.mem_cons_self) with inside | inside
    · exact (mem_modeSlots.mp inside).1
    · exact (mem_modeSlots.mp inside).1
  have holds := locked.holds_released done here got
  have held : Holds b a i x.key x.write := by
    refine (holds_iff got).mpr ⟨rfl,?_,?_⟩
    · rw [stage_mine mem got,here]; trivial
    · rw [stage_mine mem got,here]; simp [Stage.released]
  obtain ⟨readers,writer⟩ := release_word (a.shared.locks x.key) x.write
  refine ⟨locked.shape_step done,locked.turn_step done (fun locking => by rw [here] at locking; cases locking),?_,?_,?_⟩
  · intro k
    change (update a.shared.locks x.key _ k).readers = tally _ fun j => Holds b ⟨releaseSlot x a.shared,_⟩ j k false
    simp only [holds]
    by_cases same : k = x.key
    · subst same
      rw [update_self,readers,locked.readers x.key]
      cases mode : x.write with
      | true =>
        rw [if_pos rfl,Nat.sub_zero]
        refine tally_congr fun j _ => ?_
        refine ⟨fun reads => ⟨reads,?_⟩,And.left⟩
        rintro ⟨rfl,_⟩
        have := ((holds_iff got).mp reads).1
        rw [mode] at this
        cases this
      | false =>
        rw [mode] at held
        have count := tally_gain (p := fun j => Holds b a j x.key false ∧ ¬ (j = i ∧ x.key = x.key)) (q := fun j => Holds b a j x.key false)
          held.member (by simp) held (fun j _ apart => by simp [apart])
        rw [count]
        simp
    · rw [update_of_ne same,locked.readers k]
      exact tally_congr fun j _ => by simp [same]
  · intro k
    change (update a.shared.locks x.key _ k).writer = true ↔ ∃ j, Holds b ⟨releaseSlot x a.shared,_⟩ j k true
    simp only [holds]
    by_cases same : k = x.key
    · subst same
      rw [update_self,writer,Bool.and_eq_true,locked.writer x.key]
      cases mode : x.write with
      | true =>
        simp only [Bool.not_true,Bool.false_eq_true,and_false,false_iff,not_exists]
        rintro j ⟨other,apart⟩
        exact apart ⟨locked.exclusive other (mode ▸ held),trivial⟩
      | false =>
        simp only [Bool.not_false,and_true]
        refine exists_congr fun j => ⟨fun writes => ⟨writes,?_⟩,And.left⟩
        rintro rfl
        have := ((holds_iff got).mp writes).1
        rw [mode] at this
        cases this
    · simp only [update_of_ne same,locked.writer k,same,and_false,not_false_eq_true,and_true]
  · exact locked.order_step done fun q y others same => by rw [here] at same; cases same

end

theorem Locked.step {after : Tasks κ ν} (locked : Locked b a) (taken : TaskStep b a after) : Locked b after := by
  cases taken with
  | deliver got =>
    rename_i k shared
    have same : shared.locks = a.shared.locks := by
      obtain ⟨_,_,rfl⟩ := Option.map_eq_some_iff.mp got
      rfl
    exact ⟨locked.shape,locked.turn,by rw [same]; exact locked.readers,by rw [same]; exact locked.writer,locked.order⟩
  | advance done turn =>
    rename_i c m i shared stage
    generalize here : a.tasks (c,m,i) = before at done
    have again := done
    rw [← here] at again
    cases done with
    | lock got taken => exact locked.lock here got taken turn
    | release got => exact locked.release here got
    | _ => exact locked.quiet again turn rfl (by rw [here]; simp) (by rw [here]; simp)

theorem reached_locked (reached : Relation.ReflTransGen (TaskStep b) (initialTasks b) a) : Locked b a := by
  induction reached with
  | refl => exact initial_locked b
  | tail _ taken ih => exact ih.step taken

end
end
end DbExp.Aria.Calvin
