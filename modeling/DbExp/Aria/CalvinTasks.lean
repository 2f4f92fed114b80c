import DbExp.Aria.Calvin
import DbExp.Foundation.Tally

namespace DbExp.Aria.Calvin
open Function
set_option linter.unusedSectionVars false
open Tally

section
variable {κ ν : Type} [DecidableEq κ] {b : Batch κ ν}

theorem slot_size (got : b.slot i p = some x) : p < b.size i := by
  unfold Batch.slot at got
  obtain ⟨_,here,there⟩ := Option.bind_eq_some_iff.mp got
  unfold Batch.size
  rw [here]
  exact (List.getElem?_eq_some_iff.mp there).1

theorem mem_slots : p ∈ b.slots c m i ↔ ∃ x, b.slot i p = some x ∧ b.master x.key = c ∧ b.manager x.key = m := by
  unfold Batch.slots
  rw [List.mem_filter,List.mem_range,Option.any_eq_true]
  constructor
  · rintro ⟨_,x,got,owner⟩
    exact ⟨x,got,by simpa using owner⟩
  · rintro ⟨x,got,owner⟩
    exact ⟨slot_size got,x,got,by simpa using owner⟩

theorem mem_modeSlots : p ∈ b.modeSlots write c m i ↔ p ∈ b.slots c m i ∧ ∃ x, b.slot i p = some x ∧ x.write = write := by
  unfold Batch.modeSlots
  rw [List.mem_filter,Option.any_eq_true]
  simp

theorem slots_nodup (b : Batch κ ν) (c m i : Nat) : (b.slots c m i).Nodup := List.Nodup.filter _ List.nodup_range

theorem modes_nodup (b : Batch κ ν) (c m i : Nat) : (b.modeSlots false c m i ++ b.modeSlots true c m i).Nodup := by
  refine List.nodup_append.mpr ⟨(slots_nodup b c m i).filter _,(slots_nodup b c m i).filter _,?_⟩
  rintro _ reads _ writes rfl
  obtain ⟨_,_,got,shared⟩ := mem_modeSlots.mp reads
  obtain ⟨_,_,same,exclusive⟩ := mem_modeSlots.mp writes
  cases got.symm.trans same
  exact absurd (shared.symm.trans exclusive) (by decide)

theorem active_iff : b.active c i = true ↔ ∃ p x, b.slot i p = some x ∧ x.write = true ∧ b.master x.key = c := by
  unfold Batch.active
  simp only [List.any_eq_true,Option.any_eq_true,List.mem_range]
  constructor
  · rintro ⟨p,_,x,got,writes⟩
    exact ⟨p,x,got,by simpa using writes⟩
  · rintro ⟨p,x,got,writes⟩
    exact ⟨p,slot_size got,x,got,by simpa using writes⟩

theorem mem_modes (mem : p ∈ b.slots c m i) : p ∈ b.modeSlots false c m i ++ b.modeSlots true c m i := by
  obtain ⟨x,got,_⟩ := mem_slots.mp mem
  rw [List.mem_append,mem_modeSlots,mem_modeSlots]
  cases writes : x.write with
  | false => exact .inl ⟨mem,x,got,writes⟩
  | true => exact .inr ⟨mem,x,got,writes⟩

theorem inactive_reads (inactive : ¬ b.active c i = true) (mem : p ∈ b.slots c m i) : p ∈ b.modeSlots false c m i := by
  obtain ⟨x,got,here,_⟩ := mem_slots.mp mem
  refine mem_modeSlots.mpr ⟨mem,x,got,?_⟩
  cases writes : x.write with
  | false => rfl
  | true => exact absurd (active_iff.mpr ⟨p,x,got,writes,here⟩) inactive

structure Tasks (κ ν : Type) where
  shared : Shared κ ν
  tasks : Nat × Nat × Nat → Stage ν

namespace Stage

def Locking : Stage ν → Prop
  | .locking _ => True
  | _ => False

def granted (p : Nat) : Stage ν → Prop
  | .locking todo => p ∉ todo
  | _ => True

def hasRead (p : Nat) : Stage ν → Prop
  | .locking _ => False
  | .queued => False
  | .reading todo => p ∉ todo
  | _ => True

def wrote (p : Nat) : Stage ν → Prop
  | .writing todo => p ∉ todo
  | .releasing _ => True
  | .done => True
  | _ => False

def released (p : Nat) : Stage ν → Prop
  | .releasing todo => p ∉ todo
  | .done => True
  | _ => False

end Stage

section
variable (b : Batch κ ν)

inductive Advance (s : Shared κ ν) (c m i : Nat) : Stage ν → Shared κ ν → Stage ν → Prop
  | lock (slot : b.slot i p = some x) (taken : (s.locks x.key).take x.write = some lock) :
    Advance s c m i (.locking (p :: rest)) {s with locks := update s.locks x.key lock} (.locking rest)
  | grant (some : b.slots c m i ≠ []) : Advance s c m i (.locking []) s .queued
  | skip (none : b.slots c m i = []) : Advance s c m i (.locking []) s .done
  | start : Advance s c m i .queued s (.reading (b.slots c m i).reverse)
  | read (slot : b.slot i p = some x) : Advance s c m i (.reading (p :: rest)) (readSlot b c i p x s) (.reading rest)
  | run (active : b.active c i = true) (near : (s.stores (c,i)).localRead = 0) (far : (s.stores (c,i)).remoteRead = 0) :
    Advance s c m i (.reading []) s (.running (b.body i))
  | abort (inactive : ¬ b.active c i = true) : Advance s c m i (.reading []) s (.releasing (b.modeSlots false c m i))
  | assign : Advance s c m i (.running (statement :: left)) (assignSlot c i statement s) (.running left)
  | ended : Advance s c m i (.running []) s (.writing (b.modeSlots true c m i))
  | write (slot : b.slot i p = some x) (stored : (s.stores (c,i)).values[p]? = some value) :
    Advance s c m i (.writing (p :: rest)) (writeSlot x value s) (.writing rest)
  | written : Advance s c m i (.writing []) s (.releasing (b.modeSlots false c m i ++ b.modeSlots true c m i))
  | release (slot : b.slot i p = some x) : Advance s c m i (.releasing (p :: rest)) (releaseSlot x s) (.releasing rest)
  | finish : Advance s c m i (.releasing []) s .done

inductive TaskStep : Tasks κ ν → Tasks κ ν → Prop
  | advance (done : Advance b a.shared c m i (a.tasks (c,m,i)) shared stage)
    (turn : (a.tasks (c,m,i)).Locking → ∀ j, j < i → ¬ (a.tasks (c,m,j)).Locking) :
    TaskStep a ⟨shared,update a.tasks (c,m,i) stage⟩
  | deliver (found : deliver k a.shared = some shared) : TaskStep a ⟨shared,a.tasks⟩

def initialTasks : Tasks κ ν := ⟨initialShared b,fun x => .locking (b.slots x.1 x.2.1 x.2.2)⟩

def Shape (c m i : Nat) : Stage ν → Prop
  | .locking todo => todo <:+ b.slots c m i
  | .queued => b.slots c m i ≠ []
  | .reading todo => b.slots c m i ≠ [] ∧ todo <:+ (b.slots c m i).reverse
  | .running _ => b.slots c m i ≠ [] ∧ b.active c i = true
  | .writing todo => b.slots c m i ≠ [] ∧ b.active c i = true ∧ todo <:+ b.modeSlots true c m i
  | .releasing todo => b.slots c m i ≠ [] ∧ todo <:+ b.modeSlots false c m i ++ b.modeSlots true c m i
  | .done => True

end

theorem advance_shape (done : Advance b s c m i stage shared next) (shape : Shape b c m i stage) : Shape b c m i next := by
  have tail : ∀ {p : Nat} {rest whole : List Nat}, p :: rest <:+ whole → rest <:+ whole := fun suffix => (List.suffix_cons _ _).trans suffix
  cases done with
  | lock => exact tail shape
  | grant some => exact some
  | skip | finish => trivial
  | start => exact ⟨shape,List.suffix_refl _⟩
  | read | release => exact ⟨shape.1,tail shape.2⟩
  | run active => exact ⟨shape.1,active⟩
  | abort inactive =>
    refine ⟨shape.1,?_⟩
    have none : b.modeSlots true c m i = [] := by
      apply List.eq_nil_iff_forall_not_mem.mpr
      intro p mem
      obtain ⟨inside,x,got,writes⟩ := mem_modeSlots.mp mem
      obtain ⟨_,same,here,_⟩ := mem_slots.mp inside
      cases got.symm.trans same
      exact inactive (active_iff.mpr ⟨p,x,got,writes,here⟩)
    rw [none,List.append_nil]
  | assign => exact shape
  | ended => exact ⟨shape.1,shape.2,List.suffix_refl _⟩
  | write => exact ⟨shape.1,shape.2.1,tail shape.2.2⟩
  | written => exact ⟨shape.1,List.suffix_refl _⟩

theorem pop_iff {p q : Nat} {rest : List Nat} (once : (p :: rest).Nodup) : q ∉ rest ↔ q ∉ p :: rest ∨ p = q := by
  have fresh := (List.nodup_cons.mp once).1
  rw [List.mem_cons,not_or]
  constructor
  · intro apart
    by_cases same : p = q
    · exact .inr same
    · exact .inl ⟨Ne.symm same,apart⟩
  · rintro (⟨_,apart⟩ | rfl)
    · exact apart
    · exact fresh

section
variable {s shared : Shared κ ν} {stage next : Stage ν} {x : Slot κ}
variable (done : Advance b s c m i stage shared next) (shape : Shape b c m i stage) (mem : q ∈ b.slots c m i)
include done shape mem

theorem advance_granted : next.granted q ↔ stage.granted q ∨ ∃ rest, stage = .locking (q :: rest) := by
  cases done with
  | lock => simpa [Stage.granted] using pop_iff (shape.sublist.nodup (slots_nodup b c m i))
  | skip none => rw [none] at mem; cases mem
  | _ => simp [Stage.granted]

theorem advance_hasRead : next.hasRead q ↔ stage.hasRead q ∨ ∃ rest, stage = .reading (q :: rest) := by
  cases done with
  | read => simpa [Stage.hasRead] using pop_iff (shape.2.sublist.nodup (List.nodup_reverse.mpr (slots_nodup b c m i)))
  | skip none => rw [none] at mem; cases mem
  | start => simpa [Stage.hasRead] using mem
  | _ => simp [Stage.hasRead]

theorem advance_released : next.released q ↔ stage.released q ∨ ∃ rest, stage = .releasing (q :: rest) := by
  cases done with
  | release => simpa [Stage.released] using pop_iff (shape.2.sublist.nodup (modes_nodup b c m i))
  | skip none => rw [none] at mem; cases mem
  | abort inactive => simpa [Stage.released] using inactive_reads inactive mem
  | written => simpa [Stage.released,or_iff_not_imp_left] using mem_modes mem
  | _ => simp [Stage.released]

theorem advance_wrote (got : b.slot i q = some x) (writes : x.write = true) :
    next.wrote q ↔ stage.wrote q ∨ ∃ rest, stage = .writing (q :: rest) := by
  have mine : q ∈ b.modeSlots true c m i := mem_modeSlots.mpr ⟨mem,x,got,writes⟩
  cases done with
  | write => simpa [Stage.wrote] using pop_iff (shape.2.2.sublist.nodup ((slots_nodup b c m i).filter _))
  | skip none => rw [none] at mem; cases mem
  | abort inactive =>
    obtain ⟨_,same,here,_⟩ := mem_slots.mp mem
    cases got.symm.trans same
    exact absurd (active_iff.mpr ⟨q,x,got,writes,here⟩) inactive
  | ended => simpa [Stage.wrote] using mine
  | _ => simp [Stage.wrote]

end

def stageOf (b : Batch κ ν) (a : Tasks κ ν) (i : Nat) (x : Slot κ) : Stage ν := a.tasks (b.master x.key,b.manager x.key,i)

theorem flag_step (a : Tasks κ ν) (flag : Nat → Stage ν → Prop) (event : Nat → Prop) (got : b.slot j q = some y)
    (own : q ∈ b.slots c m i → b.slot i q = some y → (flag q next ↔ flag q (a.tasks (c,m,i)) ∨ event q))
    (inside : event q → q ∈ b.slots c m i) :
    flag q (stageOf b ⟨shared,update a.tasks (c,m,i) next⟩ j y) ↔ flag q (stageOf b a j y) ∨ j = i ∧ event q := by
  unfold stageOf
  by_cases same : (b.master y.key,b.manager y.key,j) = (c,m,i)
  · have parts : b.master y.key = c ∧ b.manager y.key = m ∧ j = i := by simpa using same
    obtain ⟨here,mine,rfl⟩ := parts
    simp only [same,update_self,true_and]
    exact own (mem_slots.mpr ⟨y,got,here,mine⟩) got
  have apart : ¬ (j = i ∧ event q) := by
    rintro ⟨rfl,happened⟩
    obtain ⟨_,other,here,mine⟩ := mem_slots.mp (inside happened)
    cases got.symm.trans other
    exact same (by rw [here,mine])
  simp only [update_of_ne same,apart,or_false]

section
variable {a : Tasks κ ν} {shared : Shared κ ν} {next : Stage ν} {y : Slot κ}
variable (done : Advance b a.shared c m i (a.tasks (c,m,i)) shared next) (shape : Shape b c m i (a.tasks (c,m,i)))
  (got : b.slot j q = some y)
include done shape got

theorem granted_step : (stageOf b ⟨shared,update a.tasks (c,m,i) next⟩ j y).granted q ↔
    (stageOf b a j y).granted q ∨ j = i ∧ ∃ rest, a.tasks (c,m,i) = .locking (q :: rest) := by
  apply flag_step a Stage.granted _ got
  · intro mem _
    exact advance_granted done shape mem
  · rintro ⟨rest,here⟩
    rw [here] at shape
    exact shape.subset (by simp)

theorem hasRead_step : (stageOf b ⟨shared,update a.tasks (c,m,i) next⟩ j y).hasRead q ↔
    (stageOf b a j y).hasRead q ∨ j = i ∧ ∃ rest, a.tasks (c,m,i) = .reading (q :: rest) := by
  apply flag_step a Stage.hasRead _ got
  · intro mem _
    exact advance_hasRead done shape mem
  · rintro ⟨rest,here⟩
    rw [here] at shape
    exact List.mem_reverse.mp (shape.2.subset (by simp))

theorem released_step : (stageOf b ⟨shared,update a.tasks (c,m,i) next⟩ j y).released q ↔
    (stageOf b a j y).released q ∨ j = i ∧ ∃ rest, a.tasks (c,m,i) = .releasing (q :: rest) := by
  apply flag_step a Stage.released _ got
  · intro mem _
    exact advance_released done shape mem
  rintro ⟨rest,here⟩
  rw [here] at shape
  rcases List.mem_append.mp (shape.2.subset (List.mem_cons_self)) with inside | inside
  · exact (mem_modeSlots.mp inside).1
  · exact (mem_modeSlots.mp inside).1

theorem wrote_step (writes : y.write = true) : (stageOf b ⟨shared,update a.tasks (c,m,i) next⟩ j y).wrote q ↔
    (stageOf b a j y).wrote q ∨ j = i ∧ ∃ rest, a.tasks (c,m,i) = .writing (q :: rest) := by
  apply flag_step a Stage.wrote _ got
  · intro mem here
    exact advance_wrote done shape mem here writes
  · rintro ⟨rest,here⟩
    rw [here] at shape
    exact (mem_modeSlots.mp (shape.2.2.subset (by simp))).1

end

end
end DbExp.Aria.Calvin
