import DbExp.Tapir.StrictLocking
import DbExp.Foundation.Ensures

namespace DbExp.Tapir.Locking

-- The lock server with its assertions; `none` is a failed one. A call reads the clock once
-- to drop old requests and again to stamp a new one.
def Waiter.checkTimeoutAsserting (w : Waiter) (now : Time) : Option Bool :=
  if w.waitTime.sec < now.sec then some true
  else if w.waitTime.usec < now.usec ∧ now.sec = w.waitTime.sec then some (lockWaitTimeout < (now.usec : Int) - w.waitTime.usec)
  else none

namespace Lock

def pruneAsserting (now : Time) : List Nat → OrdMap Nat Waiter → Option (List Nat × OrdMap Nat Waiter)
  | [],waiters => some ([],waiters)
  | w :: rest,waiters =>
    match waiters.find w with
    | none => none
    | some waiter => (waiter.checkTimeoutAsserting now).bind fun old =>
      if old then pruneAsserting now rest (waiters.erase w) else some (w :: rest,waiters)

section
variable (l : Lock)

def prunedAsserting (now : Time) : Option Lock :=
  (pruneAsserting now l.waitQ l.waiters).map fun p => {l with waitQ := p.1, waiters := p.2}

def tryAcquireLockAsserting (requester : Nat) (write : Bool) (now later : Time) : Option (Lock × Bool) :=
  (l.prunedAsserting now).bind fun l =>
    match l.waitQ with
    | [] => some (l,true)
    | front :: rest =>
      if front = requester then
        match l.waiters.find requester with
        | none => none
        | some waiter =>
          if waiter.write = write then some ({l with waitQ := rest, waiters := l.waiters.erase requester},true) else none
      else some (l.waitForLock requester write later,false)

def isWriteNextAsserting (now : Time) : Option (Lock × Bool) :=
  (l.prunedAsserting now).bind fun l =>
    match l.waitQ with
    | [] => some (l,false)
    | front :: _ => (l.waiters.find front).map fun waiter => (l,waiter.write)

def lockForReadAsserting (requester : Nat) (now later : Time) : Option (Lock × Bool) :=
  match l.state with
  | .unlocked => (l.tryAcquireLockAsserting requester false now later).bind fun p =>
    if p.2 then
      if p.1.holders = ∅ then some ({p.1 with state := .lockedForRead, holders := insert requester p.1.holders},true) else none
    else some (p.1,false)
  | .lockedForRead =>
    if requester ∈ l.holders then some (l,true)
    else (l.isWriteNextAsserting now).map fun p =>
      if p.2 then (p.1.waitForLock requester false later,false)
      else ({p.1 with holders := insert requester p.1.holders},true)
  | .lockedForWrite | .lockedForReadWrite =>
    if requester ∈ l.holders then some ({l with state := .lockedForReadWrite},true)
    else if l.holders.card = 1 then some (l.waitForLock requester false later,false) else none

def lockForWriteAsserting (requester : Nat) (now later : Time) : Option (Lock × Bool) :=
  match l.state with
  | .unlocked => (l.tryAcquireLockAsserting requester true now later).bind fun p =>
    if p.2 then
      if p.1.holders = ∅ then some ({p.1 with state := .lockedForWrite, holders := insert requester p.1.holders},true) else none
    else some (p.1,false)
  | .lockedForRead =>
    if l.holders.card = 1 ∧ requester ∈ l.holders then some ({l with state := .lockedForReadWrite},true)
    else some (l.waitForLock requester true later,false)
  | .lockedForWrite | .lockedForReadWrite =>
    if l.holders.card = 1 then if requester ∈ l.holders then some (l,true) else some (l.waitForLock requester true later,false)
    else none

def releaseForWriteAsserting (holder : Nat) : Option Lock :=
  if holder ∉ l.holders then some l
  else
    match l.state with
    | .unlocked | .lockedForRead => some l
    | .lockedForWrite =>
      if l.holders.erase holder = ∅ then some {l with holders := l.holders.erase holder, state := .unlocked} else none
    | .lockedForReadWrite => if l.holders.card = 1 then some {l with state := .lockedForRead} else none

end

end Lock

inductive Op where
  | lockForRead (key : String) (requester : Nat) (now later : Time)
  | lockForWrite (key : String) (requester : Nat) (now later : Time)
  | releaseForRead (key : String) (holder : Nat)
  | releaseForWrite (key : String) (holder : Nat)

namespace LockServer

section
variable (s : LockServer) (key : String) (requester : Nat) (now later : Time)

def lockForReadAsserting : Option (LockServer × Bool) :=
  ((lock s key).lockForReadAsserting requester now later).map fun p => (s.insert key p.1,p.2)

def lockForWriteAsserting : Option (LockServer × Bool) :=
  ((lock s key).lockForWriteAsserting requester now later).map fun p => (s.insert key p.1,p.2)

end

def releaseForWriteAsserting (s : LockServer) (key : String) (holder : Nat) : Option LockServer :=
  match s.find key with
  | none => some s
  | some l => (l.releaseForWriteAsserting holder).map fun l => s.insert key l

def call (s : LockServer) : Op → Option LockServer
  | .lockForRead key requester now later => (s.lockForReadAsserting key requester now later).map Prod.fst
  | .lockForWrite key requester now later => (s.lockForWriteAsserting key requester now later).map Prod.fst
  | .releaseForRead key holder => some (s.releaseForRead key holder)
  | .releaseForWrite key holder => s.releaseForWriteAsserting key holder

end LockServer

def lockServer : Machine LockServer Op := ⟨.empty,LockServer.call⟩

section
variable {now : Time}

theorem checkTimeoutAsserting_eq (w : Waiter) : Ensures (w.checkTimeoutAsserting now) (· = w.checkTimeout now) :=
  .ite_eq (.ret rfl) (.assert fun _ => .ret rfl)

end

structure Queued (waitQ : List Nat) (waiters : OrdMap Nat Waiter) : Prop where
  once : waitQ.Nodup
  tabled : ∀ r, r ∈ waitQ ↔ (waiters.find r).isSome = true

structure Lock.Moded (l : Lock) : Prop where
  free : l.state = .unlocked ↔ l.holders = ∅
  single : l.state.Writes → l.holders.card = 1
  queue : Queued l.waitQ l.waiters

theorem Queued.drop (queued : Queued (w :: rest) waiters) : Queued rest (waiters.erase w) := by
  obtain ⟨apart,once⟩ := List.nodup_cons.mp queued.once
  refine ⟨once,fun r => ?_⟩
  rw [OrdMap.find_erase]
  by_cases same : w = r
  · subst same
    simp [apart]
  · rw [if_neg same,← queued.tabled r]
    simp [Ne.symm same]

theorem Queued.add (queued : Queued waitQ waiters) (absent : waiters.find r = none) (x : Waiter) :
    Queued (waitQ ++ [r]) (waiters.insert r x) := by
  have apart : r ∉ waitQ := by rw [queued.tabled,absent]; simp
  refine ⟨List.nodup_append.mpr ⟨queued.once,List.nodup_singleton r,?_⟩,fun u => ?_⟩
  · intro u listed v last
    cases List.mem_singleton.mp last
    exact fun same => apart (same ▸ listed)
  rw [OrdMap.find_insert]
  by_cases same : r = u
  · subst same
    simp
  · rw [if_neg same,← queued.tabled u]
    simp [Ne.symm same]

theorem Queued.front (queued : Queued (w :: rest) waiters) : ∃ x, waiters.find w = some x :=
  Option.isSome_iff_exists.mp ((queued.tabled w).mp List.mem_cons_self)

structure Requeued (later : Time) (l k : Lock) : Prop where
  state : k.state = l.state
  holders : k.holders = l.holders
  queue : Queued l.waitQ l.waiters → Queued k.waitQ k.waiters
  since : ∀ r x, k.waiters.find r = some x → l.waiters.find r = some x ∨ x.waitTime = later

section
variable {l k : Lock} {now later : Time}

theorem Requeued.refl (l : Lock) : Requeued later l l := ⟨rfl,rfl,fun queued => queued,fun _ _ got => .inl got⟩

theorem Requeued.trans (one : Requeued later l k) (two : Requeued later k m) : Requeued later l m where
  state := two.state.trans one.state
  holders := two.holders.trans one.holders
  queue := fun queued => two.queue (one.queue queued)
  since := fun r x got => (two.since r x got).elim (one.since r x) .inr

theorem requeued_waitForLock : Requeued later l (l.waitForLock r write later) := by
  refine ⟨waitForLock_state,waitForLock_holders,?_,?_⟩
  · intro queued
    unfold Lock.waitForLock
    split
    · exact queued
    next absent =>
      exact queued.add absent _
  intro u x got
  unfold Lock.waitForLock at got
  split at got
  · exact .inl got
  rw [OrdMap.find_insert] at got
  split at got
  · cases got
    exact .inr rfl
  · exact .inl got

theorem prune_kept (waitQ : List Nat) (waiters : OrdMap Nat Waiter) : Ensures (Lock.pruneAsserting now waitQ waiters) fun p =>
    (Queued waitQ waiters → Queued p.1 p.2) ∧ ∀ r x, p.2.find r = some x → waiters.find r = some x := by
  induction waitQ generalizing waiters with
  | nil => exact .ret ⟨fun queued => queued,fun _ _ got => got⟩
  | cons w rest ih =>
    unfold Lock.pruneAsserting
    cases waiters.find w with
    | none => exact .fail
    | some waiter =>
      refine (checkTimeoutAsserting_eq waiter).bind fun old _ => .ite (fun _ p pruned => ?_) fun _ =>
        .ret ⟨fun queued => queued,fun _ _ got => got⟩
      obtain ⟨queue,since⟩ := ih (waiters.erase w) p pruned
      refine ⟨fun queued => queue queued.drop,fun r x got => ?_⟩
      have kept := since r x got
      rw [OrdMap.find_erase] at kept
      split at kept
      · cases kept
      · exact kept

theorem requeued_pruned (later : Time) (l : Lock) : Ensures (l.prunedAsserting now) (Requeued later l) :=
  (prune_kept l.waitQ l.waiters).map fun _ kept => ⟨rfl,rfl,kept.1,fun r x got => .inl (kept.2 r x got)⟩

theorem requeued_acquire (l : Lock) (r : Nat) (write : Bool) (now later : Time) :
    Ensures (l.tryAcquireLockAsserting r write now later) fun p => Requeued later l p.1 := by
  refine (requeued_pruned later l).bind fun m pruned => ?_
  split
  · exact .ret pruned
  rename_i front rest queue
  refine .ite (fun own => ?_) fun _ => .ret (pruned.trans requeued_waitForLock)
  split
  · exact .fail
  refine .assert fun _ => .ret (pruned.trans ⟨rfl,rfl,fun queued => ?_,fun u x got => ?_⟩)
  · rw [queue,own] at queued
    exact queued.drop
  rw [OrdMap.find_erase] at got
  split at got
  · cases got
  · exact .inl got

theorem requeued_isWriteNext (later : Time) (l : Lock) : Ensures (l.isWriteNextAsserting now) fun p => Requeued later l p.1 := by
  refine (requeued_pruned later l).bind fun m pruned => ?_
  split
  · exact .ret pruned
  · intro p asked
    obtain ⟨_,_,rfl⟩ := Option.map_eq_some_iff.mp asked
    exact pruned

theorem Lock.Moded.requeued (moded : l.Moded) (requeued : Requeued later l k) : k.Moded where
  free := by rw [requeued.state,requeued.holders]; exact moded.free
  single := by rw [requeued.state,requeued.holders]; exact moded.single
  queue := requeued.queue moded.queue

theorem moded_reading (mode : l.state = .lockedForRead) (held : l.holders.Nonempty) (queue : Queued l.waitQ l.waiters) : l.Moded where
  free := by simp [mode,held.ne_empty]
  single := fun writes => absurd writes (not_writes_of_reading mode)
  queue := queue

theorem moded_writing (mode : l.state.Writes) (held : l.holders.card = 1) (queue : Queued l.waitQ l.waiters) : l.Moded where
  free := by
    have filled : l.holders ≠ ∅ := fun vacant => by simp [vacant] at held
    rcases mode with write | both
    · simp [write,filled]
    · simp [both,filled]
  single := fun _ => held
  queue := queue

structure Serves (later : Time) (l k : Lock) : Prop where
  moded : l.Moded → k.Moded
  since : ∀ r x, k.waiters.find r = some x → l.waiters.find r = some x ∨ x.waitTime = later

theorem Requeued.serves (requeued : Requeued later l k) : Serves later l k :=
  ⟨fun moded => moded.requeued requeued,requeued.since⟩

theorem lockForRead_serves (l : Lock) (r : Nat) (now later : Time) :
    Ensures (l.lockForReadAsserting r now later) fun p => Serves later l p.1 := by
  unfold Lock.lockForReadAsserting
  split
  · refine (requeued_acquire l r false now later).bind fun p requeued => .ite (fun _ => .assert fun _ => .ret ?_) fun _ => .ret requeued.serves
    exact ⟨fun moded => moded_reading rfl (Finset.insert_nonempty _ _) (requeued.queue moded.queue),requeued.since⟩
  next mode =>
    refine .ite (fun _ => .ret (Requeued.refl l).serves) fun _ => (requeued_isWriteNext later l).map fun p requeued => ?_
    split
    · exact (requeued.trans requeued_waitForLock).serves
    · exact ⟨fun moded => moded_reading (requeued.state.trans mode) (Finset.insert_nonempty _ _) (requeued.queue moded.queue),
        requeued.since⟩
  all_goals
    rename_i mode
    refine .ite (fun _ => .ret ⟨fun moded => moded_writing (.inr rfl) (moded.single ?_) moded.queue,fun _ _ got => .inl got⟩)
      fun _ => .assert fun _ => .ret requeued_waitForLock.serves
    simp [LockState.Writes,mode]

theorem lockForWrite_serves (l : Lock) (r : Nat) (now later : Time) :
    Ensures (l.lockForWriteAsserting r now later) fun p => Serves later l p.1 := by
  unfold Lock.lockForWriteAsserting
  split
  · refine (requeued_acquire l r true now later).bind fun p requeued => .ite (fun _ => .assert fun empty => .ret ?_) fun _ => .ret requeued.serves
    refine ⟨fun moded => moded_writing (.inl rfl) ?_ (requeued.queue moded.queue),requeued.since⟩
    rw [empty]
    rfl
  · exact .ite (fun single => .ret ⟨fun moded => moded_writing (.inr rfl) single.1 moded.queue,fun _ _ got => .inl got⟩)
      fun _ => .ret requeued_waitForLock.serves
  all_goals exact .assert fun _ => .ite (fun _ => .ret (Requeued.refl l).serves) fun _ => .ret requeued_waitForLock.serves

theorem releaseForRead_serves : Serves later l (l.releaseForRead h) := by
  unfold Lock.releaseForRead
  split
  · exact (Requeued.refl l).serves
  split
  · exact (Requeued.refl l).serves
  · exact (Requeued.refl l).serves
  · refine ⟨fun moded => ?_,fun _ _ got => .inl got⟩
    by_cases last : l.holders.erase h = ∅
    · rw [if_pos last,last]
      exact ⟨by simp,by simp [LockState.Writes],moded.queue⟩
    · rw [if_neg last]
      exact moded_reading rfl (Finset.nonempty_iff_ne_empty.mpr last) moded.queue
  next mode =>
    exact ⟨fun moded => moded_writing (.inl rfl) (moded.single (.inr mode)) moded.queue,fun _ _ got => .inl got⟩

theorem releaseForWrite_serves (l : Lock) (h : Nat) : Ensures (l.releaseForWriteAsserting h) (Serves later l) := by
  unfold Lock.releaseForWriteAsserting
  refine .ite (fun _ => .ret (Requeued.refl l).serves) fun held => ?_
  split
  · exact .ret (Requeued.refl l).serves
  · exact .ret (Requeued.refl l).serves
  · exact .assert fun last =>
      .ret ⟨fun moded => ⟨by simp [last],by simp [LockState.Writes],moded.queue⟩,fun _ _ got => .inl got⟩
  · exact .assert fun _ => .ret ⟨fun moded => moded_reading rfl ⟨h,not_not.mp held⟩ moded.queue,fun _ _ got => .inl got⟩

end

theorem holders_alone {l : Lock} (single : l.holders.card = 1) (held : r ∈ l.holders) : l.holders = {r} := by
  obtain ⟨_,only⟩ := Finset.card_eq_one.mp single
  rw [only] at held ⊢
  rw [Finset.mem_singleton.mp held]

theorem lockForWrite_alone (l : Lock) (r : Nat) (now later : Time) :
    Ensures (l.lockForWriteAsserting r now later) fun p => p.2 = true → p.1.holders = {r} := by
  have refused {k : Lock} : (k,false).2 = true → (k,false).1.holders = {r} := fun mine => by cases mine
  unfold Lock.lockForWriteAsserting
  split
  · refine (requeued_acquire l r true now later).bind fun p _ => .ite (fun _ => .assert fun empty => .ret fun _ => ?_) fun _ => .ret refused
    rw [empty]
    rfl
  · exact .ite (fun single => .ret fun _ => holders_alone single.1 single.2) fun _ => .ret refused
  all_goals exact .assert fun single => .ite (fun held => .ret fun _ => holders_alone single held) fun _ => .ret refused

namespace Op

def key : Op → String
  | .lockForRead key _ _ _ => key
  | .lockForWrite key _ _ _ => key
  | .releaseForRead key _ => key
  | .releaseForWrite key _ => key

def later (clock : Time) : Op → Time
  | .lockForRead _ _ _ later => later
  | .lockForWrite _ _ _ later => later
  | _ => clock

def act (l : Lock) : Op → Option Lock
  | .lockForRead _ requester now later => (l.lockForReadAsserting requester now later).map Prod.fst
  | .lockForWrite _ requester now later => (l.lockForWriteAsserting requester now later).map Prod.fst
  | .releaseForRead _ holder => some (l.releaseForRead holder)
  | .releaseForWrite _ holder => l.releaseForWriteAsserting holder

end Op

section
open LockServer (lock)

theorem moded_new : Lock.new.Moded := ⟨by decide,by simp [LockState.Writes,Lock.new],by decide,fun r => by simp [Lock.new]⟩

theorem call_act (s : LockServer) (op : Op) :
    (s.call op).isSome = (op.act (lock s op.key)).isSome ∧
    ∀ t, s.call op = some t → ∃ l, op.act (lock s op.key) = some l ∧ ∀ other, lock t other = if op.key = other then l else lock s other := by
  cases op with
  | lockForRead key r now later =>
    simp only [LockServer.call,LockServer.lockForReadAsserting,Op.act,Op.key]
    cases (lock s key).lockForReadAsserting r now later with
    | none => exact ⟨rfl,fun _ done => by cases done⟩
    | some p => exact ⟨rfl,fun t done => ⟨p.1,rfl,fun other => by cases done; exact lock_insert⟩⟩
  | lockForWrite key r now later =>
    simp only [LockServer.call,LockServer.lockForWriteAsserting,Op.act,Op.key]
    cases (lock s key).lockForWriteAsserting r now later with
    | none => exact ⟨rfl,fun _ done => by cases done⟩
    | some p => exact ⟨rfl,fun t done => ⟨p.1,rfl,fun other => by cases done; exact lock_insert⟩⟩
  | releaseForRead key h =>
    refine ⟨rfl,fun t done => ⟨_,rfl,fun other => ?_⟩⟩
    cases done
    exact lock_releaseForRead
  | releaseForWrite key h =>
    simp only [LockServer.call,LockServer.releaseForWriteAsserting,Op.act,Op.key]
    cases got : s.find key with
    | none =>
      have new : lock s key = .new := by rw [LockServer.lock,got]; rfl
      have idle : Lock.new.releaseForWriteAsserting h = some .new := by simp [Lock.releaseForWriteAsserting,Lock.new]
      refine ⟨by rw [new,idle]; rfl,fun t done => ⟨.new,by rw [new,idle],fun other => ?_⟩⟩
      cases done
      by_cases same : key = other
      · exact (same ▸ new : lock s other = .new).trans (if_pos same).symm
      · exact (if_neg same).symm
    | some l =>
      have old : lock s key = l := by rw [LockServer.lock,got]; rfl
      dsimp only
      rw [old]
      cases l.releaseForWriteAsserting h with
      | none => exact ⟨rfl,fun _ done => by cases done⟩
      | some k => exact ⟨rfl,fun t done => ⟨k,rfl,fun other => by cases done; exact lock_insert⟩⟩

theorem act_serves (op : Op) (clock : Time) : Ensures (op.act l) (Serves (op.later clock) l) := by
  cases op with
  | lockForRead key r now later => exact (lockForRead_serves l r now later).map fun _ serves => serves
  | lockForWrite key r now later => exact (lockForWrite_serves l r now later).map fun _ serves => serves
  | releaseForRead key h => exact .ret releaseForRead_serves
  | releaseForWrite key h => exact releaseForWrite_serves l h

theorem call_moded {s t : LockServer} (moded : ∀ key, (lock s key).Moded) (done : s.call op = some t) (key : String) :
    (lock t key).Moded := by
  obtain ⟨l,acted,locks⟩ := (call_act s op).2 t done
  rw [locks]
  split
  · exact (act_serves op ⟨0,0⟩ l acted).moded (moded _)
  · exact moded key

end

theorem modes_of_locks (s : LockServer) (reached : lockServer.Reached Machine.anyStep s) :
    (∀ key, (LockServer.lock s key).Moded) ∧ ∀ key r now later t,
      s.lockForWriteAsserting key r now later = some (t,true) → (LockServer.lock t key).holders = {r} := by
  have moded : ∀ key, (LockServer.lock s key).Moded := by
    refine Machine.Reached.invariant (m := lockServer) (fun s => ∀ key, (LockServer.lock s key).Moded) (fun _ => moded_new) ?_ reached
    intro s op t _ moded _ done
    exact call_moded moded done
  refine ⟨moded,fun key r now later t locked => ?_⟩
  obtain ⟨⟨_,_⟩,done,same⟩ := Option.map_eq_some_iff.mp locked
  cases same
  rw [lock_insert,if_pos rfl]
  exact lockForWrite_alone _ r now later _ done rfl

def upgrade : List Op :=
  [.lockForRead "x" 1 ⟨7,0⟩ ⟨7,0⟩,.lockForRead "x" 2 ⟨7,0⟩ ⟨7,0⟩,.lockForWrite "x" 3 ⟨7,1⟩ ⟨7,2⟩,.releaseForRead "x" 1]

theorem modes_of_locks_upgrade : ∃ s t : LockServer, (LockServer.lock s "x").Moded ∧ (LockServer.lock s "x").waitQ = [3] ∧
    s.lockForWriteAsserting "x" 2 ⟨7,3⟩ ⟨7,4⟩ = some (t,true) ∧ (LockServer.lock t "x").holders = {2} := by
  obtain ⟨s,reached,waits,locked⟩ := Machine.reached_of_run lockServer Machine.anyStep
    (fun s => (LockServer.lock s "x").waitQ = [3] ∧
      (s.lockForWriteAsserting "x" 2 ⟨7,3⟩ ⟨7,4⟩).map Prod.snd = some true) upgrade (by decide +kernel)
  obtain ⟨⟨t,_⟩,done,rfl⟩ := Option.map_eq_some_iff.mp locked
  obtain ⟨moded,alone⟩ := modes_of_locks s reached
  exact ⟨s,t,moded "x",waits,done,alone _ _ _ _ _ done⟩

end DbExp.Tapir.Locking
