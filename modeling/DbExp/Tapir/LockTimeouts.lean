import DbExp.Tapir.LockAsserts

namespace DbExp.Tapir.Locking
open List
open Option (bind_some isSome_map)
open LockServer (lock)
open Machine (anyStep reached_of_run)

def Time.Before (a b : Time) : Prop := a.sec < b.sec ∨ a.sec = b.sec ∧ a.usec ≤ b.usec

instance (a b : Time) : Decidable (a.Before b) := inferInstanceAs (Decidable (_ ∨ _))

theorem Time.Before.trans {a b c : Time} (one : a.Before b) (two : b.Before c) : a.Before c := by
  unfold Time.Before at *
  omega

namespace Lock

def expired (waiters : OrdMap Nat Waiter) (now : Time) (w : Nat) : Bool := (waiters.find w).any fun x => x.checkTimeout now

def next (l : Lock) (now : Time) : Option Nat := (l.waitQ.dropWhile (expired l.waiters now)).head?

def looked (l : Lock) (now : Time) : List Nat := l.waitQ.takeWhile (expired l.waiters now) ++ (l.next now).toList

def Apart (l : Lock) (now : Time) : Prop := ∀ w ∈ l.looked now, ∀ x ∈ l.waiters.find w, x.waitTime ≠ now

def Kept (l : Lock) (requester : Nat) (write : Bool) (now : Time) : Prop :=
  l.next now = some requester → ∀ x ∈ l.waiters.find requester, x.write = write

def Careful (l : Lock) : Op → Prop
  | .lockForRead _ requester now _ =>
    (l.state = .unlocked → l.Apart now ∧ l.Kept requester false now) ∧
    (l.state = .lockedForRead → requester ∉ l.holders → l.Apart now)
  | .lockForWrite _ requester now _ => l.state = .unlocked → l.Apart now ∧ l.Kept requester true now
  | .releaseForRead .. => True
  | .releaseForWrite .. => True

end Lock

section
variable {now later : Time}

theorem checkTimeoutAsserting_now (x : Waiter) (same : x.waitTime = now) :
    x.checkTimeoutAsserting now = none ∧ x.checkTimeout now = false := by
  subst same
  simp [Waiter.checkTimeoutAsserting,Waiter.checkTimeout,lockWaitTimeout]

theorem checkTimeoutAsserting_past {x : Waiter} (past : x.waitTime.Before now) (apart : x.waitTime ≠ now) :
    x.checkTimeoutAsserting now = some (x.checkTimeout now) := by
  have ordered : x.waitTime.sec < now.sec ∨ x.waitTime.usec < now.usec ∧ now.sec = x.waitTime.sec := by
    rcases past with earlier | ⟨sec,usec⟩
    · exact .inl earlier
    refine .inr ⟨lt_of_le_of_ne usec fun same => apart ?_,sec.symm⟩
    cases eq : x.waitTime
    cases now
    simp_all
  unfold Waiter.checkTimeoutAsserting Waiter.checkTimeout
  split
  · rfl
  next notEarlier =>
    rw [if_pos (ordered.resolve_left notEarlier)]

theorem front_waits {waiters rest : OrdMap Nat Waiter} (same : ∀ u ∈ w :: waitQ, rest.find u = waiters.find u)
    (queued : Queued (w :: waitQ) rest) :
    ∃ x, rest.find w = some x ∧ waiters.find w = some x ∧ Lock.expired waiters now w = x.checkTimeout now ∧
      ∀ u ∈ waitQ, (rest.erase w).find u = waiters.find u := by
  obtain ⟨x,got⟩ := queued.front
  have here : waiters.find w = some x := (same w mem_cons_self).symm.trans got
  refine ⟨x,got,here,by simp [Lock.expired,here],fun u listed => ?_⟩
  have other : w ≠ u := fun eq => (nodup_cons.mp queued.once).1 (eq ▸ listed)
  rw [OrdMap.find_erase,if_neg other]
  exact same u (.tail _ listed)

variable {waiters : OrdMap Nat Waiter} (past : ∀ w x, waiters.find w = some x → x.waitTime.Before now)
include past

section
variable (waitQ : List Nat) (rest : OrdMap Nat Waiter) (same : ∀ w ∈ waitQ, rest.find w = waiters.find w) (queued : Queued waitQ rest)
include waitQ rest same queued

theorem prune_isSome : (Lock.pruneAsserting now waitQ rest).isSome ↔
      ∀ w ∈ waitQ.takeWhile (Lock.expired waiters now) ++ (waitQ.dropWhile (Lock.expired waiters now)).head?.toList,
        ∀ x ∈ waiters.find w, x.waitTime ≠ now := by
  induction waitQ generalizing rest with
  | nil => simp [Lock.pruneAsserting]
  | cons w waitQ ih =>
    obtain ⟨x,got,here,own,others⟩ := front_waits same queued
    simp only [Lock.pruneAsserting,got]
    by_cases apart : x.waitTime = now
    · obtain ⟨fails,fresh⟩ := checkTimeoutAsserting_now x apart
      rw [fails,takeWhile_cons,dropWhile_cons,own,fresh]
      simp [here,apart]
    rw [checkTimeoutAsserting_past (past w x here) apart,takeWhile_cons,dropWhile_cons,own]
    cases old : x.checkTimeout now with
    | false => simp [here,apart]
    | true =>
      simpa [here,apart] using ih (rest.erase w) others queued.drop

theorem prune_eq (done : Lock.pruneAsserting now waitQ rest = some p) :
    p.1 = waitQ.dropWhile (Lock.expired waiters now) ∧ ∀ w ∈ p.1, p.2.find w = waiters.find w := by
  induction waitQ generalizing rest with
  | nil =>
    cases done
    exact ⟨rfl,same⟩
  | cons w waitQ ih =>
    obtain ⟨x,got,here,own,others⟩ := front_waits same queued
    simp only [Lock.pruneAsserting,got] at done
    by_cases apart : x.waitTime = now
    · rw [(checkTimeoutAsserting_now x apart).1] at done
      cases done
    rw [checkTimeoutAsserting_past (past w x here) apart,bind_some] at done
    rw [dropWhile_cons,own]
    split at done
    next old =>
      rw [if_pos old]
      exact ih (rest.erase w) others queued.drop done
    next fresh =>
      cases done
      rw [if_neg fresh]
      exact ⟨rfl,same⟩

end

end

section
variable {l : Lock} {now later : Time}

structure Lock.Settled (l : Lock) (clock : Time) : Prop where
  moded : l.Moded
  past : ∀ w x, l.waiters.find w = some x → x.waitTime.Before clock

section
variable (settled : l.Settled now)
include settled

theorem prunedAsserting_isSome : (l.prunedAsserting now).isSome ↔ l.Apart now := by
  rw [Lock.prunedAsserting,isSome_map]
  exact prune_isSome settled.past l.waitQ l.waiters (fun _ _ => rfl) settled.moded.queue

theorem prunedAsserting_next (done : l.prunedAsserting now = some k) :
    k.waitQ.head? = l.next now ∧ ∀ w ∈ k.waitQ, k.waiters.find w = l.waiters.find w := by
  obtain ⟨_,pruned,rfl⟩ := Option.map_eq_some_iff.mp done
  obtain ⟨queue,tables⟩ := prune_eq settled.past l.waitQ l.waiters (fun _ _ => rfl) settled.moded.queue pruned
  exact ⟨by rw [Lock.next,← queue],tables⟩

theorem tryAcquireLockAsserting_isSome (later : Time) :
    (l.tryAcquireLockAsserting r write now later).isSome ↔ l.Apart now ∧ l.Kept r write now := by
  rw [← prunedAsserting_isSome settled,Lock.tryAcquireLockAsserting]
  cases done : l.prunedAsserting now with
  | none => simp
  | some k =>
    obtain ⟨next,tables⟩ := prunedAsserting_next settled done
    have queued := (requeued_pruned now l k done).queue settled.moded.queue
    simp only [bind_some,Option.isSome_some,true_and]
    cases queue : k.waitQ with
    | nil =>
      rw [queue] at next
      simp [Lock.Kept,← next]
    | cons front rest =>
      rw [queue,List.head?_cons] at next
      rw [queue] at queued
      obtain ⟨x,got⟩ := queued.front
      have here : l.waiters.find front = some x := by rw [← tables front (by rw [queue]; simp)]; exact got
      by_cases own : front = r
      · subst own
        simp only [if_true,got,Lock.Kept,← next,here,Option.mem_some_iff,forall_const,forall_eq']
        split <;> simp_all
      · simp [own,Lock.Kept,← next]

theorem isWriteNextAsserting_isSome : (l.isWriteNextAsserting now).isSome ↔ l.Apart now := by
  rw [← prunedAsserting_isSome settled,Lock.isWriteNextAsserting]
  cases done : l.prunedAsserting now with
  | none => simp
  | some k =>
    have queued := (requeued_pruned now l k done).queue settled.moded.queue
    cases queue : k.waitQ with
    | nil => simp [queue]
    | cons front rest =>
      rw [queue] at queued
      obtain ⟨_,got⟩ := queued.front
      simp [queue,got]

end

theorem acquire_free (moded : l.Moded) (mode : l.state = .unlocked)
    (tried : l.tryAcquireLockAsserting r write now later = some p) : p.1.holders = ∅ := by
  exact (requeued_acquire l r write now later p tried).holders.trans (moded.free.mp mode)

theorem lockForReadAsserting_isSome (settled : l.Settled now) :
    (l.lockForReadAsserting r now later).isSome ↔ l.Careful (.lockForRead key r now later) := by
  unfold Lock.lockForReadAsserting Lock.Careful
  split
  next mode =>
    rw [mode]
    simp only [forall_const,reduceCtorEq,false_implies,and_true]
    rw [← tryAcquireLockAsserting_isSome settled later]
    cases tried : l.tryAcquireLockAsserting r false now later with
    | none => simp
    | some p =>
      rw [bind_some,if_pos (acquire_free settled.moded mode tried)]
      split <;> simp
  next mode =>
    rw [mode]
    simp only [reduceCtorEq,false_implies,true_and,forall_const]
    split
    next held =>
      simp [held]
    next apart =>
      rw [isSome_map,isWriteNextAsserting_isSome settled]
      simp [apart]
  all_goals
    rename_i mode
    have single : l.holders.card = 1 := settled.moded.single (by simp [LockState.Writes,mode])
    rw [if_pos single,mode]
    simp only [reduceCtorEq,false_implies,and_self,iff_true]
    split <;> rfl

theorem lockForWriteAsserting_isSome (settled : l.Settled now) :
    (l.lockForWriteAsserting r now later).isSome ↔ l.Careful (.lockForWrite key r now later) := by
  unfold Lock.lockForWriteAsserting Lock.Careful
  split
  next mode =>
    rw [mode]
    simp only [forall_const]
    rw [← tryAcquireLockAsserting_isSome settled later]
    cases tried : l.tryAcquireLockAsserting r true now later with
    | none => simp
    | some p =>
      rw [bind_some,if_pos (acquire_free settled.moded mode tried)]
      split <;> simp
  next mode =>
    rw [mode]
    simp only [reduceCtorEq,false_implies,iff_true]
    split <;> rfl
  all_goals
    rename_i mode
    have single : l.holders.card = 1 := settled.moded.single (by simp [LockState.Writes,mode])
    rw [if_pos single,mode]
    simp only [reduceCtorEq,false_implies,iff_true]
    split <;> rfl

theorem releaseForWriteAsserting_isSome (moded : l.Moded) : (l.releaseForWriteAsserting h).isSome := by
  unfold Lock.releaseForWriteAsserting
  split
  · rfl
  rename_i held
  split
  · rfl
  · rfl
  next mode =>
    obtain ⟨_,only⟩ := Finset.card_eq_one.mp (moded.single (.inl mode))
    rw [only] at held ⊢
    rw [Finset.mem_singleton.mp (not_not.mp held)]
    simp
  next mode =>
    rw [if_pos (moded.single (.inr mode))]
    rfl

end

namespace Op

def Timely (clock : Time) : Op → Prop
  | .lockForRead _ _ now later => clock.Before now ∧ now.Before later
  | .lockForWrite _ _ now later => clock.Before now ∧ now.Before later
  | .releaseForRead .. => True
  | .releaseForWrite .. => True

instance (clock : Time) (op : Op) : Decidable (op.Timely clock) := by
  unfold Op.Timely; split <;> infer_instance

theorem Timely.later {op : Op} (timely : op.Timely clock) : clock.Before (op.later clock) := by
  cases op with
  | lockForRead _ _ now later | lockForWrite _ _ now later => exact timely.1.trans timely.2
  | releaseForRead _ _ | releaseForWrite _ _ => exact .inr ⟨rfl,le_rfl⟩

end Op

theorem Lock.Settled.after {l : Lock} (settled : l.Settled clock) (passed : clock.Before now) : l.Settled now :=
  ⟨settled.moded,fun w x got => (settled.past w x got).trans passed⟩

theorem act_isSome {l : Lock} (settled : l.Settled clock) (op : Op) (timely : op.Timely clock) :
    (op.act l).isSome ↔ l.Careful op := by
  cases op with
  | lockForRead key r now later =>
    rw [Op.act,isSome_map]
    exact lockForReadAsserting_isSome (settled.after timely.1)
  | lockForWrite key r now later =>
    rw [Op.act,isSome_map]
    exact lockForWriteAsserting_isSome (settled.after timely.1)
  | releaseForRead key h => exact ⟨fun _ => trivial,fun _ => rfl⟩
  | releaseForWrite key h => exact ⟨fun _ => trivial,fun _ => releaseForWriteAsserting_isSome settled.moded⟩

structure Clocked where
  locks : LockServer
  clock : Time

def clocked : Machine Clocked Op where
  initial := ⟨.empty,⟨0,0⟩⟩
  step := fun s op => if op.Timely s.clock then (s.locks.call op).map fun locks => ⟨locks,op.later s.clock⟩ else none

theorem settled_of_reached (reached : clocked.Reached anyStep s) : ∀ key, (lock s.locks key).Settled s.clock := by
  refine Machine.Reached.invariant (m := clocked) (fun s => ∀ key, (lock s.locks key).Settled s.clock) ?_ ?_ reached
  · exact fun key => ⟨moded_new,fun w x got => by cases got⟩
  intro s op t _ settled _ done key
  dsimp only [clocked] at done
  split at done
  next timely =>
    obtain ⟨locks,called,rfl⟩ := Option.map_eq_some_iff.mp done
    obtain ⟨l,acted,others⟩ := (call_act s.locks op).2 locks called
    have passed := timely.later
    rw [others]
    split
    · have serves := act_serves op s.clock l acted
      refine ⟨serves.moded (settled _).moded,fun w x got => ?_⟩
      rcases serves.since w x got with old | new
      · exact ((settled _).past w x old).trans passed
      · rw [new]
        exact .inr ⟨rfl,le_rfl⟩
    · exact (settled key).after passed
  · cases done

theorem assertions_hold_iff_careful (s : Clocked) (reached : clocked.Reached anyStep s) (op : Op) (timely : op.Timely s.clock) :
    (∃ t, s.locks.call op = some t) ↔ (lock s.locks op.key).Careful op := by
  rw [← Option.isSome_iff_exists,(call_act s.locks op).1]
  exact act_isSome (settled_of_reached reached op.key) op timely

def readerWaits : List Op :=
  [.lockForWrite "x" 1 ⟨7,0⟩ ⟨7,0⟩,.lockForRead "x" 2 ⟨7,1⟩ ⟨7,2⟩,.releaseForWrite "x" 1]

theorem assertions_hold_for_reader : ∃ s : Clocked, (lock s.locks "x").Careful (.lockForRead "x" 2 ⟨7,3⟩ ⟨7,3⟩) ∧
    (lock s.locks "x").next ⟨7,3⟩ = some 2 := by
  obtain ⟨s,reached,clock,next,called⟩ := reached_of_run clocked anyStep
    (fun s => s.clock = ⟨7,2⟩ ∧ (lock s.locks "x").next ⟨7,3⟩ = some 2 ∧
      (s.locks.call (.lockForRead "x" 2 ⟨7,3⟩ ⟨7,3⟩)).isSome = true) readerWaits (by decide +kernel)
  refine ⟨s,?_,next⟩
  refine (assertions_hold_iff_careful s reached (.lockForRead "x" 2 ⟨7,3⟩ ⟨7,3⟩) ?_).mp (Option.isSome_iff_exists.mp called)
  rw [clock]
  decide

-- The requester that waits to read asks to write; and a second requester comes in the
-- microsecond in which the first was queued.
theorem waiting_reader_fails_assertions :
    ¬ (∀ s, clocked.Reached anyStep s → ∀ r now later, (Op.lockForWrite "x" r now later).Timely s.clock →
      ∃ t, s.locks.call (.lockForWrite "x" r now later) = some t) ∧
    ¬ ∀ s, clocked.Reached anyStep s → ∀ r now later, (Op.lockForRead "x" r now later).Timely s.clock →
      ∃ t, s.locks.call (.lockForRead "x" r now later) = some t := by
  obtain ⟨s,reached,clock,mode,microsecond⟩ := reached_of_run clocked anyStep
    (fun s => s.clock = ⟨7,2⟩ ∧ s.locks.call (.lockForWrite "x" 2 ⟨7,3⟩ ⟨7,3⟩) = none ∧
      s.locks.call (.lockForRead "x" 3 ⟨7,2⟩ ⟨7,2⟩) = none) readerWaits (by decide +kernel)
  refine ⟨fun claimed => ?_,fun claimed => ?_⟩
  · obtain ⟨t,done⟩ := claimed s reached 2 ⟨7,3⟩ ⟨7,3⟩ (by rw [clock]; decide)
    rw [mode] at done
    cases done
  · obtain ⟨t,done⟩ := claimed s reached 3 ⟨7,2⟩ ⟨7,2⟩ (by rw [clock]; decide)
    rw [microsecond] at done
    cases done

end DbExp.Tapir.Locking
