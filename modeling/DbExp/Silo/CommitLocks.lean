import DbExp.Foundation.Machine
import Mathlib.Data.List.Sort

namespace DbExp.Silo.CommitLocks
open Function List

-- txn.h: dbtuple_write_info. Tuples are known by their address.
structure WriteInfo where
  tuple : Nat
  isInsert : Bool
  deriving DecidableEq

-- The unique key is [tuple, !is_insert, pos]; the sort below keeps equal ones in place.
def WriteInfo.Before (a b : WriteInfo) : Prop := a.tuple < b.tuple ∨ a.tuple = b.tuple ∧ (a.isInsert = true ∨ b.isInsert = false)

instance : DecidableRel WriteInfo.Before := fun a b => by unfold WriteInfo.Before; infer_instance

-- The loop of commit over the sorted writes behind `last`: the tuples that
-- handle_last_tuple_in_group goes on to lock, in order.
def lockLoop (last : WriteInfo) (insertedLastRun : Bool) : List WriteInfo → List Nat
  | [] => if insertedLastRun then [] else [last.tuple]
  | w :: rest =>
    if last.tuple ≠ w.tuple then (if insertedLastRun then [] else [last.tuple]) ++ lockLoop w w.isInsert rest
    else lockLoop w (insertedLastRun || w.isInsert) rest

def lockPlan (writeSet : List WriteInfo) : List Nat :=
  match writeSet.insertionSort WriteInfo.Before with
  | [] => []
  | w :: rest => lockLoop w w.isInsert rest

-- Locking, with the tuples to go; once the first was seen without MAX_TID, its lock is waited for.
inductive Phase where
  | active
  | locking (todo : List Nat) (checked : Bool)
  | writing (todo : List WriteInfo)
  | unlocking
  deriving DecidableEq

structure Txn where
  phase : Phase
  writeSet : List WriteInfo

structure State where
  allocated : Nat → Bool
  owner : Nat → Option Nat
  maxTid : Nat → Bool
  txns : Nat → Txn

def State.set (s : State) (a : Nat) (x : Txn) : State := {s with txns := update s.txns a x}

inductive Act where
  | put (tuple : Nat)
  | insert (tuple : Nat)
  | commit
  | abort
  | check
  | lock (latest : Bool)
  | validate (valid : Bool)
  | write
  | finish
  | unlock (tuple : Nat)

-- One step of a transaction. An insert that loses to another one leaves nothing behind.
-- Whether a locked tuple may still be written and the reads are valid is open, and so
-- is the order in which the locks are given back.
def act (s : State) (a : Nat) : Txn → Act → Option State
  | ⟨.active,ws⟩,.put t => if s.allocated t then some (s.set a ⟨.active,ws ++ [⟨t,false⟩]⟩) else none
  | ⟨.active,ws⟩,.insert t => if s.allocated t then none else some {s.set a ⟨.active,ws ++ [⟨t,true⟩]⟩ with
      allocated := update s.allocated t true
      owner := update s.owner t (some a)
      maxTid := update s.maxTid t true}
  | ⟨.active,ws⟩,.commit => some (s.set a ⟨.locking (lockPlan ws) false,ws⟩)
  | ⟨.active,ws⟩,.abort => some (s.set a ⟨.unlocking,ws⟩)
  | ⟨.locking (t :: rest) false,ws⟩,.check => some (s.set a ⟨if s.maxTid t then .unlocking else .locking (t :: rest) true,ws⟩)
  | ⟨.locking (t :: rest) true,ws⟩,.lock latest => if s.owner t = none then
      some {s.set a ⟨if latest then .locking rest false else .unlocking,ws⟩ with owner := update s.owner t (some a)}
    else none
  | ⟨.locking [] _,ws⟩,.validate valid => some (s.set a ⟨if valid then .writing ws else .unlocking,ws⟩)
  | ⟨.writing (w :: rest),ws⟩,.write =>
    some {s.set a ⟨.writing rest,ws⟩ with maxTid := if w.isInsert then update s.maxTid w.tuple false else s.maxTid}
  | ⟨.writing [],ws⟩,.finish => some (s.set a ⟨.unlocking,ws⟩)
  | ⟨.unlocking,ws⟩,.unlock t => if s.owner t = some a then
      some {s.set a ⟨.unlocking,ws⟩ with owner := update s.owner t none}
    else none
  | _,_ => none

def machine (existing : Nat → Bool) : Machine State (Nat × Act) where
  initial := ⟨existing,fun _ => none,fun _ => false,fun _ => ⟨.active,[]⟩⟩
  step s x := act s x.1 (s.txns x.1) x.2

def Waits (s : State) (a b : Nat) : Prop := ∃ t rest, (s.txns a).phase = .locking (t :: rest) true ∧ s.owner t = some b

instance : Std.Total WriteInfo.Before := ⟨fun a b => by unfold WriteInfo.Before; grind⟩

instance : IsTrans WriteInfo WriteInfo.Before := ⟨fun a b c => by unfold WriteInfo.Before; grind⟩

theorem lockLoop_increases (sorted : (last :: ws).Pairwise WriteInfo.Before) (inserted : Bool) :
    (lockLoop last inserted ws).Pairwise (· < ·) ∧
      ∀ t ∈ lockLoop last inserted ws, last.tuple ≤ t ∧ ∃ w ∈ last :: ws, w.tuple = t := by
  induction ws generalizing last inserted with
  | nil => cases inserted <;> simp [lockLoop]
  | cons w rest ih =>
    obtain ⟨first,later⟩ := pairwise_cons.mp sorted
    have order := first w (.head _)
    unfold lockLoop
    split
    next boundary =>
      obtain ⟨increasing,above⟩ := ih later w.isInsert
      have less : last.tuple < w.tuple := by unfold WriteInfo.Before at order; omega
      cases inserted <;> grind
    next same =>
      obtain ⟨increasing,above⟩ := ih later (inserted || w.isInsert)
      exact ⟨increasing,by grind⟩

theorem lockPlan_increases (ws : List WriteInfo) :
    (lockPlan ws).Pairwise (· < ·) ∧ ∀ t ∈ lockPlan ws, ∃ w ∈ ws, w.tuple = t := by
  have sorted := pairwise_insertionSort WriteInfo.Before ws
  have perm := perm_insertionSort WriteInfo.Before ws
  unfold lockPlan
  split
  · simp
  rename_i w rest result
  rw [result] at sorted perm
  obtain ⟨increasing,among⟩ := lockLoop_increases sorted w.isInsert
  refine ⟨increasing,fun t mem => ?_⟩
  obtain ⟨v,got,same⟩ := (among t mem).2
  exact ⟨v,perm.mem_iff.mp got,same⟩

-- A tuple that was locked in the lock phase is below all that are still to be locked.
def Passed (t : Nat) : Phase → Prop
  | .active => False
  | .locking todo _ => ∀ u ∈ todo, t < u
  | .writing _ | .unlocking => True

def Planned (s : State) (writeSet : List WriteInfo) : Phase → Prop
  | .locking todo checked => todo.Pairwise (· < ·) ∧ (∀ t ∈ todo, s.allocated t = true) ∧
      (checked = true → ∀ t ∈ todo.head?, s.maxTid t = false)
  | .writing todo => ∀ w ∈ todo, w ∈ writeSet
  | .active | .unlocking => True

structure Stands (s : State) (a : Nat) (x : Txn) : Prop where
  known : ∀ w ∈ x.writeSet, s.allocated w.tuple = true
  inserted : x.phase = .unlocking ∨ ∀ w ∈ x.writeSet, w.isInsert = true → s.owner w.tuple = some a
  held : ∀ t, s.owner t = some a → s.maxTid t = true ∨ Passed t x.phase
  planned : Planned s x.writeSet x.phase

-- What a step of `a` may do to the tuples, as the other transactions see it.
structure Beside (s t : State) (a : Nat) : Prop where
  allocated : ∀ u, s.allocated u = true → t.allocated u = true
  keeps : ∀ u b, b ≠ a → s.allocated u = true → s.owner u = some b → t.owner u = some b
  gains : ∀ u b, b ≠ a → t.owner u = some b → s.owner u = some b ∧ (s.maxTid u = true → t.maxTid u = true)
  versions : ∀ u, s.allocated u = true → s.maxTid u = false → t.maxTid u = false

theorem Stands.beside (stands : Stands s b x) (beside : Beside s t a) (other : b ≠ a) : Stands t b x := by
  obtain ⟨known,inserted,held,planned⟩ := stands
  refine ⟨fun w mem => beside.allocated _ (known w mem),?_,?_,?_⟩
  · exact inserted.imp_right fun owned w mem insert => beside.keeps _ b other (known w mem) (owned w mem insert)
  · intro u owned
    obtain ⟨before,stays⟩ := beside.gains u b other owned
    exact (held u before).imp_left stays
  unfold Planned at *
  split at planned
  · obtain ⟨increasing,allocated,checked⟩ := planned
    refine ⟨increasing,fun u mem => beside.allocated u (allocated u mem),fun seen u first => ?_⟩
    exact beside.versions u (allocated u (mem_of_mem_head? first)) (checked seen u first)
  · exact planned
  · trivial
  · trivial

theorem beside_unchanged (s : State) (a : Nat) (txns : Nat → Txn) : Beside s {s with txns := txns} a :=
  ⟨fun _ here => here,fun _ _ _ _ owned => owned,fun _ _ _ owned => ⟨owned,id⟩,fun _ _ version => version⟩

theorem beside_owner {s : State} (same : ∀ b ≠ a, now = some b ↔ s.owner u = some b) :
    Beside s {s with owner := update s.owner u now, txns := txns} a := by
  refine ⟨fun _ here => here,?_,?_,fun _ _ version => version⟩
  all_goals
    simp only [update_apply]
    grind

theorem Stands.unlocking (known : ∀ w ∈ writeSet, s.allocated w.tuple = true) : Stands s a ⟨.unlocking,writeSet⟩ :=
  ⟨known,.inl rfl,fun _ _ => .inr trivial,trivial⟩

def Sound (s : State) : Prop := ∀ a, Stands s a (s.txns a)

theorem Sound.change (sound : Sound s) (beside : Beside s t a) (become : t.txns = update s.txns a x)
    (own : Stands t a x) : Sound t := by
  intro b
  rw [become]
  by_cases same : b = a
  · subst same
    rwa [update_self]
  · rw [update_of_ne same]
    exact (sound b).beside beside same

theorem act_sound (sound : Sound s) (own : Stands s a y) (taken : act s a y x = some t) : Sound t := by
  obtain ⟨known,inserted,held,planned⟩ := own
  revert taken
  fun_cases act s a y x with
  | case1 ws u allocated =>
    rintro ⟨⟩
    refine sound.change (beside_unchanged s a _) rfl ⟨?_,?_,held,trivial⟩
    · refine forall_mem_append.mpr ⟨known,fun w new => ?_⟩
      cases mem_singleton.mp new
      exact allocated
    refine .inr fun w mem insert => ?_
    rcases mem_append.mp mem with old | new
    · exact inserted.resolve_left nofun w old insert
    · cases mem_singleton.mp new
      cases insert
  | case2 | case3 | case9 | case14 | case15 => rintro ⟨⟩
  | case4 ws u fresh =>
    rintro ⟨⟩
    have mine := inserted.resolve_left nofun
    refine sound.change ⟨?_,?_,?_,?_⟩ rfl ⟨?_,.inr ?_,?_,trivial⟩
    all_goals
      simp only [update_apply]
      grind [Passed]
  | case5 ws =>
    rintro ⟨⟩
    refine sound.change (beside_unchanged s a _) rfl ⟨known,.inr (inserted.resolve_left nofun),?_,?_⟩
    · exact fun u owned => .inl ((held u owned).resolve_right id)
    · refine ⟨(lockPlan_increases ws).1,fun u mem => ?_,nofun⟩
      obtain ⟨w,got,rfl⟩ := (lockPlan_increases ws).2 u mem
      exact known w got
  | case6 | case12 =>
    rintro ⟨⟩
    exact sound.change (beside_unchanged s a _) rfl (.unlocking known)
  | case7 u rest ws =>
    rintro ⟨⟩
    refine sound.change (beside_unchanged s a _) rfl ?_
    cases version : s.maxTid u with
    | true => exact .unlocking known
    | false =>
      refine ⟨known,.inr (inserted.resolve_left nofun),held,planned.1,planned.2.1,?_⟩
      rintro _ _ ⟨⟩
      exact version
  | case8 u rest ws latest free =>
    rintro ⟨⟩
    have mine := inserted.resolve_left nofun
    obtain ⟨increasing,allocated,_⟩ := planned
    refine sound.change (beside_owner fun b other => ?_) rfl ?_
    · simp [free,other.symm]
    cases latest with
    | false => exact .unlocking known
    | true =>
      obtain ⟨first,later⟩ := pairwise_cons.mp increasing
      refine ⟨known,.inr ?_,?_,later,fun v mem => allocated v (.tail _ mem),nofun⟩
      · simp only [update_apply]
        grind
      intro v owned
      by_cases same : v = u
      · exact .inr (same ▸ first)
      · have before := held v (by simpa [update_of_ne same] using owned)
        exact before.imp_right fun passed w mem => passed w (.tail _ mem)
  | case10 _ ws valid =>
    rintro ⟨⟩
    refine sound.change (beside_unchanged s a _) rfl ?_
    cases valid with
    | true => exact ⟨known,.inr (inserted.resolve_left nofun),fun _ _ => .inr trivial,fun _ => id⟩
    | false => exact .unlocking known
  | case11 w rest ws =>
    rintro ⟨⟩
    have mine := inserted.resolve_left nofun
    refine sound.change ⟨fun _ here => here,fun _ _ _ _ owned => owned,?_,?_⟩ rfl
      ⟨known,.inr mine,fun _ _ => .inr trivial,fun v mem => planned v (.tail _ mem)⟩
    all_goals
      have written := mine w (planned w (.head _))
      simp only [State.set]
      grind
  | case13 ws u owned =>
    rintro ⟨⟩
    refine sound.change (beside_owner fun b other => ?_) rfl (.unlocking known)
    simp [owned,other.symm]

theorem reached_sound (reached : (machine existing).Reached Machine.anyStep s) : Sound s := by
  refine Machine.Reached.invariant (m := machine existing) Sound ?_ ?_ reached
  · exact fun a => ⟨nofun,.inr nofun,nofun,trivial⟩
  · exact fun s x t _ sound _ taken => act_sound sound (sound x.1) taken

-- The holder is in its lock phase itself, so what it inserted still has MAX_TID.
theorem Waits.increases (sound : Sound s) (waits : (s.txns a).phase = .locking (t :: rest) true) (owned : s.owner t = some b)
    (next : (s.txns b).phase = .locking (u :: later) true) : t < u := by
  have checked := (sound a).planned
  have held := (sound b).held t owned
  rw [waits] at checked
  rw [next] at held
  rcases held with version | passed
  · rw [checked.2.2 rfl t rfl] at version
    cases version
  · exact passed u (.head _)

theorem TransGen.increases (sound : Sound s) (chain : Relation.TransGen (Waits s) a b)
    (first : (s.txns a).phase = .locking (t :: rest) true) (last : (s.txns b).phase = .locking (u :: later) true) : t < u := by
  induction chain generalizing u later with
  | single waits =>
    obtain ⟨v,_,here,owned⟩ := waits
    rw [first] at here
    cases here
    exact Waits.increases sound first owned last
  | tail _ waits ih =>
    obtain ⟨v,_,here,owned⟩ := waits
    exact (ih here).trans (Waits.increases sound here owned last)

theorem commits_never_deadlock (existing : Nat → Bool) (s : State) (reached : (machine existing).Reached Machine.anyStep s) (a : Nat) :
    ¬ Relation.TransGen (Waits s) a a := by
  intro cycle
  obtain ⟨_,⟨t,_,here,_⟩,_⟩ := Relation.TransGen.head'_iff.mp cycle
  exact Nat.lt_irrefl t (TransGen.increases (reached_sound reached) cycle here here)

theorem waits_for_lock_phase : ∃ s, (machine (· < 6)).Reached Machine.anyStep s ∧ Waits s 1 0 ∧ ¬ Relation.TransGen (Waits s) 1 1 := by
  obtain ⟨s,reached,waits,_,owned⟩ := Machine.reached_of_run (machine (· < 6)) Machine.anyStep
    (fun s => (s.txns 1).phase = .locking [4] true ∧ (s.txns 0).phase = .locking [5] true ∧ s.owner 4 = some 0)
    [(0,.insert 7),(0,.put 5),(0,.put 4),(0,.commit),(0,.check),(0,.lock true),(0,.check),(1,.put 4),(1,.commit),(1,.check)]
    (by decide +kernel)
  exact ⟨s,reached,⟨4,[],waits,owned⟩,commits_never_deadlock (· < 6) s reached 1⟩

end DbExp.Silo.CommitLocks
