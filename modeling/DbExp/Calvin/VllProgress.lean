import DbExp.Calvin.VllOrder
import Mathlib.Data.List.Nodup

namespace DbExp.Calvin.Vll
open List
open Machine (anyStep reached_of_run)
variable {κ : Type} {cfg : Config κ} {txns queue earlier : List (Txn κ)} {s : State κ}

def counts (cfg : Config κ) (earlier : List (Txn κ)) : Counters := ⟨requested (writes cfg) earlier,requested (reads cfg) earlier⟩

-- A transaction that nothing blocked keeps the status it came with. One that is blocked
-- asks for an index of those before it in the queue, or for one of its own twice.
def Waits (cfg : Config κ) (earlier : List (Txn κ)) (t : Txn κ) : Prop :=
  t.status = .new ∨ t.status = .blocked ∧ ¬ Free (counts cfg earlier) (writes cfg t) (reads cfg t)

def Stuck (cfg : Config κ) : List (Txn κ) → List (Txn κ) → Prop
  | _,[] => True
  | earlier,t :: rest => Waits cfg earlier t ∧ Stuck cfg (earlier ++ [t]) rest

theorem Stuck.append (stuck : Stuck cfg earlier queue) (waits : Waits cfg (earlier ++ queue) t) :
    Stuck cfg earlier (queue ++ [t]) := by
  induction queue generalizing earlier with
  | nil => exact ⟨by simpa using waits,trivial⟩
  | cons u rest ih => exact ⟨stuck.1,ih stuck.2 (by simpa using waits)⟩

theorem checkWrites_nodup (l : List Nat) (now : Bits × Bool) (passed : (l.foldl checkWrite now).2 = true) : l.Nodup := by
  induction l generalizing now with
  | nil => exact nodup_nil
  | cons h l ih =>
    rw [foldl_cons] at passed
    refine nodup_cons.mpr ⟨?_,ih _ passed⟩
    intro again
    simpa [checkWrite] using ((checkWrites_free _ _ passed).2 h again).1

theorem requested_zero {set : Txn κ → List Nat} (unused : ∀ t ∈ queue, h ∉ set t) : requested set queue h = 0 := by
  apply sum_eq_zero
  intro x mem
  obtain ⟨t,listed,rfl⟩ := mem_map.mp mem
  rw [count_eq_zero.mpr (unused t listed)]
  rfl

-- The analysis lets a transaction through only if the counters of those before it would have.
theorem Covers.free (covers : Covers cfg bits earlier) (passed : (check bits (writes cfg t) (reads cfg t)).2 = true) :
    Free (counts cfg earlier) (writes cfg t) (reads cfg t) := by
  rw [check] at passed
  obtain ⟨first,readable⟩ := checkReads_free _ _ passed
  obtain ⟨_,writable⟩ := checkWrites_free _ _ first
  have single := checkWrites_nodup _ _ first
  rw [checkWrites_bits] at readable
  simp only [set_foldl,Bool.or_eq_false_iff,decide_eq_false_iff_not] at readable
  have unwritten : ∀ h, bits.dx h = false → requested (writes cfg) earlier h = 0 := by
    intro h clear
    refine requested_zero fun u listed used => ?_
    rw [(covers u listed).1 h used] at clear
    cases clear
  have unread : ∀ h, bits.ds h = false → requested (reads cfg) earlier h = 0 := by
    intro h clear
    refine requested_zero fun u listed used => ?_
    rw [(covers u listed).2 h used] at clear
    cases clear
  constructor
  · intro h used
    obtain ⟨dx,ds⟩ := writable h used
    have once := nodup_iff_count_le_one.mp single h
    simp only [counts,unwritten h dx,unread h ds]
    omega
  intro h used
  obtain ⟨dx,own⟩ := readable h used
  simp only [counts,unwritten h dx,count_eq_zero.mpr own]
  rfl

theorem analyse_stuck (stuck : Stuck cfg earlier queue) (covers : Covers cfg bits earlier) : analyse cfg bits queue = (queue,[]) := by
  induction queue generalizing bits earlier with
  | nil => rfl
  | cons t rest ih =>
    obtain ⟨waits,later⟩ := stuck
    simp only [analyse,check_bits,ih later (covers.mark t)]
    split
    next blocked =>
      obtain ⟨_,caught⟩ := waits.resolve_left (by rw [blocked]; decide)
      rw [if_neg fun passed => caught (covers.free passed)]
    · rfl

structure Stalled (cfg : Config κ) (s : State κ) : Prop where
  stuck : Stuck cfg [] s.queue
  idle : s.running = []
  none : s.pushed = []

theorem Stalled.arrive (stalled : Stalled cfg s) (sound : Sound cfg txns s) (next : txns[s.offset]? = some t) (new : t.status = .new) :
    Stalled cfg (arrive cfg s t) := by
  have last : ∀ u ∈ s.queue, u.id < t.id := by
    intro u listed
    refine sound.ahead u (.inl listed) t ?_
    rw [drop_offset next]
    exact mem_cons_self
  have counted : s.counters = counts cfg s.queue := by
    rw [counts,← funext sound.cx,← funext sound.cs]
  obtain ⟨pass,granted⟩ := request_status s.counters t.status (writes cfg t) (reads cfg t)
  simp only [Vll.arrive]
  generalize request s.counters t.status (writes cfg t) (reads cfg t) = got at *
  have waits : got.2 = .new ∨ got.2 = .blocked ∧ ¬ Free (counts cfg s.queue) (writes cfg t) (reads cfg t) := by
    by_cases blocked : got.2 = .blocked
    · refine .inr ⟨blocked,fun free => ?_⟩
      rw [pass (counted ▸ free),new] at blocked
      cases blocked
    · exact .inl ((granted blocked).2.trans new)
  have placed : insertTxn { t with status := got.2 } s.queue = s.queue ++ [{ t with status := got.2 }] := insertTxn_last last
  rw [if_neg (by rcases waits with same | ⟨same,_⟩ <;> rw [same] <;> decide),placed]
  exact ⟨stalled.stuck.append waits,stalled.idle,stalled.none⟩

theorem Stalled.step (stalled : Stalled cfg s) (sound : Sound cfg txns s) (new : ∀ t ∈ txns, t.status = .new)
    (taken : step cfg txns s a = some u) : Stalled cfg u := by
  cases a with
  | done id =>
    rw [Vll.step,stalled.idle] at taken
    cases taken
  | arrive =>
    simp only [Vll.step,Option.ite_none_right_eq_some] at taken
    obtain ⟨t,next,rfl⟩ := Option.map_eq_some_iff.mp taken.2
    exact stalled.arrive sound next (new t (mem_of_getElem? next))
  | analyse =>
    simp only [Vll.step,Option.ite_none_left_eq_some,Option.some.injEq] at taken
    obtain ⟨_,rfl⟩ := taken
    rw [analyse_stuck stalled.stuck fun _ held => (not_mem_nil held).elim]
    exact ⟨stalled.stuck,by simp [push,stalled.idle],by simp [push,stalled.none]⟩

def HeadPushed (s : State κ) : Prop := ∀ head rest, s.queue = head :: rest → head.id ∈ s.pushed.map Txn.id

-- With the status the applications leave, nothing is ever pushed, and the head of the
-- queue is already waiting after the first arrival.
theorem new_never_pushed (cfg : Config κ) (txns : List (Txn κ)) (increasing : Sorted txns) (new : ∀ t ∈ txns, t.status = .new) :
    (∀ s, (machine cfg txns).Reached anyStep s → s.pushed = []) ∧
    (txns ≠ [] → ∃ s, (machine cfg txns).Reached anyStep s ∧ ¬ HeadPushed s) := by
  have stalled : ∀ s, (machine cfg txns).Reached anyStep s → Stalled cfg s := by
    intro s reached
    apply reached.invariant (Stalled cfg)
    · exact ⟨trivial,rfl,rfl⟩
    · intro s a t before holds _ taken
      exact holds.step (reached_sound increasing before) new taken
  refine ⟨fun s reached => (stalled s reached).none,?_⟩
  intro given
  obtain ⟨t,rest,rfl⟩ := exists_cons_of_ne_nil given
  have reached : (machine cfg (t :: rest)).Reached anyStep (arrive cfg initial t) := .step (a := .arrive) .initial trivial rfl
  refine ⟨_,reached,fun pushed => ?_⟩
  obtain ⟨u,queued⟩ : ∃ u, (arrive cfg initial t).queue = [u] := by
    simp only [arrive]
    split <;> exact ⟨_,rfl⟩
  have member := pushed _ _ queued
  rw [(stalled _ reached).none] at member
  cases member

def alone : List (Txn Nat) := [⟨1,[0],[1],.new⟩]

theorem new_never_pushed_alone : (∀ s, (machine oneNode alone).Reached anyStep s → s.pushed = []) ∧
    ∃ s, (machine oneNode alone).Reached anyStep s ∧ ¬ HeadPushed s := by
  obtain ⟨none,waiting⟩ := new_never_pushed oneNode alone (by simp [Sorted,alone]) (by simp [alone])
  exact ⟨none,waiting (by simp [alone])⟩

-- The only transaction in the queue, without any conflict, is not pushed.
theorem new_head_not_pushed : ¬ ∀ (txns : List (Txn Nat)) (s : State Nat), (∀ t ∈ txns, t.status = .new) → Sorted txns →
    (machine oneNode txns).Reached anyStep s → HeadPushed s := by
  intro claim
  obtain ⟨s,reached,queue,pushed⟩ := reached_of_run (machine oneNode alone) anyStep
    (fun s => s.queue = alone ∧ s.pushed = []) [.arrive] (by decide +kernel)
  have dispatched := claim _ s (by simp [alone]) (by simp [Sorted,alone]) reached _ _ queue
  rw [pushed] at dispatched
  cases dispatched

end DbExp.Calvin.Vll
