import DbExp.Foundation.Machine
import Mathlib.Algebra.Order.BigOperators.Group.List
import Mathlib.Tactic.Ring

namespace DbExp.Calvin.Vll
open Function List

-- src_calvin_vector_vll. The loop of the lock manager thread reads these fields of a
-- transaction; the applications leave the status at new.
inductive Status where
  | new
  | active
  | committed
  | aborted
  | blocked
  deriving DecidableEq, Repr

structure Txn (κ : Type) where
  id : Int
  readSet : List κ
  readWriteSet : List κ
  status : Status
  deriving DecidableEq, Repr

structure Config (κ : Type) where
  hash : κ → Nat
  lookupPartition : κ → Nat
  thisNode : Nat

section
variable {κ : Type} (cfg : Config κ)

def indexes (keys : List κ) : List Nat :=
  (keys.filter fun k => cfg.lookupPartition k == cfg.thisNode).map cfg.hash

def writes (t : Txn κ) : List Nat := indexes cfg t.readWriteSet

def reads (t : Txn κ) : List Nat := indexes cfg t.readSet

end

structure Counters where
  cx : Nat → Int
  cs : Nat → Int

def bump (f : Nat → Int) (h : Nat) (change : Int) : Nat → Int := update f h (f h + change)

def requestWrite (now : Counters × Status) (h : Nat) : Counters × Status :=
  let cx := bump now.1.cx h 1
  (⟨cx,now.1.cs⟩,if cx h > 1 ∨ now.1.cs h > 0 then .blocked else now.2)

def requestRead (now : Counters × Status) (h : Nat) : Counters × Status :=
  (⟨now.1.cx,bump now.1.cs h 1⟩,if now.1.cx h > 0 then .blocked else now.2)

def request (counters : Counters) (status : Status) (writes reads : List Nat) : Counters × Status :=
  reads.foldl requestRead (writes.foldl requestWrite (counters,status))

def release (counters : Counters) (writes reads : List Nat) : Counters :=
  ⟨writes.foldl (fun cx h => bump cx h (-1)) counters.cx,reads.foldl (fun cs h => bump cs h (-1)) counters.cs⟩

structure Bits where
  dx : Nat → Bool
  ds : Nat → Bool

def checkWrite (now : Bits × Bool) (h : Nat) : Bits × Bool :=
  (⟨update now.1.dx h true,now.1.ds⟩,if now.1.dx h || now.1.ds h then false else now.2)

def checkRead (now : Bits × Bool) (h : Nat) : Bits × Bool :=
  (⟨now.1.dx,update now.1.ds h true⟩,if now.1.dx h then false else now.2)

def check (bits : Bits) (writes reads : List Nat) : Bits × Bool :=
  reads.foldl checkRead (writes.foldl checkWrite (bits,true))

def mark (bits : Bits) (writes reads : List Nat) : Bits :=
  ⟨writes.foldl (fun dx h => update dx h true) bits.dx,reads.foldl (fun ds h => update ds h true) bits.ds⟩

variable {κ : Type}

def Txn.activate (t : Txn κ) : Txn κ := { t with status := .active }

def analyse (cfg : Config κ) (bits : Bits) : List (Txn κ) → List (Txn κ) × List (Txn κ)
  | [] => ([],[])
  | t :: rest =>
    if t.status = .blocked then
      let (after,success) := check bits (writes cfg t) (reads cfg t)
      let (queue,pushed) := analyse cfg after rest
      if success then (t.activate :: queue,t.activate :: pushed) else (t :: queue,pushed)
    else
      let (queue,pushed) := analyse cfg (mark bits (writes cfg t) (reads cfg t)) rest
      (t :: queue,pushed)

def insertTxn (t : Txn κ) : List (Txn κ) → List (Txn κ)
  | [] => [t]
  | u :: rest => if t.id < u.id then t :: u :: rest else if t.id = u.id then u :: rest else u :: insertTxn t rest

structure State (κ : Type) where
  offset : Nat
  queue : List (Txn κ)
  counters : Counters
  blockedTxns : Int
  running : List (Txn κ)
  pushed : List (Txn κ)

inductive Act where
  | done (id : Int)
  | arrive
  | analyse
  deriving DecidableEq, Repr

def initial : State κ := ⟨0,[],⟨fun _ => 0,fun _ => 0⟩,0,[],[]⟩

def push (s : State κ) (txns : List (Txn κ)) : State κ := { s with running := s.running ++ txns, pushed := s.pushed ++ txns }

def dispatchHead (s : State κ) : State κ :=
  match s.queue with
  | [] => s
  | t :: rest =>
    if t.status = .blocked then push { s with queue := t.activate :: rest, blockedTxns := s.blockedTxns - 1 } [t.activate] else s

section
variable (cfg : Config κ)

def finish (s : State κ) (t : Txn κ) : State κ :=
  dispatchHead { s with
    counters := release s.counters (writes cfg t) (reads cfg t)
    queue := s.queue.filter fun u => u.id != t.id
    running := s.running.filter fun u => u.id != t.id }

def arrive (s : State κ) (t : Txn κ) : State κ :=
  let (counters,status) := request s.counters t.status (writes cfg t) (reads cfg t)
  let t := { t with status := status }
  let s := { s with offset := s.offset + 1, counters := counters, queue := insertTxn t s.queue }
  if status = .active then push s [t] else { s with blockedTxns := s.blockedTxns + 1 }

-- One iteration of the loop over a sequence of parsed transactions. Which transaction comes
-- back from a worker, and whether one has when the thread looks, is open.
def step (txns : List (Txn κ)) (s : State κ) : Act → Option (State κ)
  | .done id => (s.running.find? fun t => t.id == id).map (finish cfg s)
  | .arrive => if s.blockedTxns < 20 then (txns[s.offset]?).map (arrive cfg s) else none
  | .analyse =>
    if s.blockedTxns < 20 then none
    else
      let (queue,pushed) := analyse cfg ⟨fun _ => false,fun _ => false⟩ s.queue
      some (push { s with queue := queue, blockedTxns := s.blockedTxns - pushed.length } pushed)

def machine (txns : List (Txn κ)) : Machine (State κ) Act := ⟨initial,step cfg txns⟩

def ConflictAt (h : Nat) (t u : Txn κ) : Prop :=
  h ∈ writes cfg t ∧ (h ∈ writes cfg u ∨ h ∈ reads cfg u) ∨ h ∈ reads cfg t ∧ h ∈ writes cfg u

def Conflict (t u : Txn κ) : Prop := ∃ h, ConflictAt cfg h t u

end

def requested (set : Txn κ → List Nat) (queue : List (Txn κ)) (h : Nat) : Int := (queue.map fun t => ((set t).count h : Int)).sum

theorem bump_foldl (l : List Nat) (f : Nat → Int) (change : Int) (g : Nat) :
    l.foldl (fun f h => bump f h change) f g = f g + l.count g * change := by
  induction l generalizing f with
  | nil => simp
  | cons h l ih =>
    rw [foldl_cons,ih]
    by_cases same : g = h
    · subst same
      rw [bump,update_self,count_cons_self]
      push_cast
      ring
    · rw [bump,update_of_ne same,count_cons_of_ne (Ne.symm same)]

theorem requestWrites_counters (l : List Nat) (now : Counters × Status) :
    (l.foldl requestWrite now).1 = ⟨fun h => now.1.cx h + l.count h,now.1.cs⟩ := by
  have counted : ∀ now : Counters × Status, (l.foldl requestWrite now).1 = ⟨l.foldl (fun f h => bump f h 1) now.1.cx,now.1.cs⟩ := by
    induction l with
    | nil => intro now; rfl
    | cons h l ih => intro now; exact ih _
  rw [counted]
  congr
  funext h
  rw [bump_foldl,Int.mul_one]

theorem requestReads_counters (l : List Nat) (now : Counters × Status) :
    (l.foldl requestRead now).1 = ⟨now.1.cx,fun h => now.1.cs h + l.count h⟩ := by
  have counted : ∀ now : Counters × Status, (l.foldl requestRead now).1 = ⟨now.1.cx,l.foldl (fun f h => bump f h 1) now.1.cs⟩ := by
    induction l with
    | nil => intro now; rfl
    | cons h l ih => intro now; exact ih _
  rw [counted]
  congr
  funext h
  rw [bump_foldl,Int.mul_one]

theorem request_counters (counters : Counters) (status : Status) (w r : List Nat) :
    (request counters status w r).1 = ⟨fun h => counters.cx h + w.count h,fun h => counters.cs h + r.count h⟩ := by
  rw [request,requestReads_counters,requestWrites_counters]

theorem release_counters (counters : Counters) (w r : List Nat) :
    release counters w r = ⟨fun h => counters.cx h - w.count h,fun h => counters.cs h - r.count h⟩ := by
  have less : ∀ (l : List Nat) (f : Nat → Int), l.foldl (fun f h => bump f h (-1)) f = fun h => f h - l.count h := by
    intro l f
    funext h
    rw [bump_foldl]
    ring
  rw [release,less,less]

def WriteFree (counters : Counters) (l : List Nat) : Prop := ∀ h ∈ l, counters.cx h + l.count h ≤ 1 ∧ counters.cs h ≤ 0

theorem writeFree_cons : WriteFree counters (h :: l) ↔
    (counters.cx h + 1 ≤ 1 ∧ counters.cs h ≤ 0) ∧ WriteFree ⟨bump counters.cx h 1,counters.cs⟩ l := by
  have counted : ∀ g, counters.cx g + ((h :: l).count g : Int) = bump counters.cx h 1 g + (l.count g : Int) := by
    intro g
    by_cases same : g = h
    · subst same
      rw [bump,update_self,count_cons_self]
      push_cast
      ring
    · rw [bump,update_of_ne same,count_cons_of_ne (Ne.symm same)]
  constructor
  · intro free
    refine ⟨?_,?_⟩
    · obtain ⟨once,_⟩ := free h mem_cons_self
      rw [count_cons_self] at once
      push_cast at once
      omega
    intro g later
    have := free g (mem_cons_of_mem h later)
    rw [counted] at this
    exact this
  intro free g mem
  obtain ⟨_,rest⟩ := free
  rw [counted]
  by_cases later : g ∈ l
  · exact rest g later
  have same : g = h := (mem_cons.mp mem).resolve_right later
  subst same
  rw [count_eq_zero.mpr later,bump,update_self]
  push_cast
  omega

-- A request blocks at the first key that is not free and stays blocked.
theorem foldl_status {step : Counters × Status → Nat → Counters × Status} (ok : Counters → Nat → Prop)
    (free : Counters → List Nat → Prop) (none : ∀ counters, free counters [])
    (more : ∀ counters status h l, free counters (h :: l) ↔ ok counters h ∧ free (step (counters,status) h).1 l)
    (pass : ∀ counters status h, ok counters h → (step (counters,status) h).2 = status)
    (stop : ∀ counters status h, ¬ ok counters h → (step (counters,status) h).2 = .blocked)
    (l : List Nat) (now : Counters × Status) :
    (free now.1 l → (l.foldl step now).2 = now.2) ∧
    ((l.foldl step now).2 ≠ .blocked → free now.1 l ∧ (l.foldl step now).2 = now.2) := by
  induction l generalizing now with
  | nil => exact ⟨fun _ => rfl,fun _ => ⟨none _,rfl⟩⟩
  | cons h l ih =>
    rw [foldl_cons,more now.1 now.2 h l]
    have ahead := ih (step now h)
    by_cases good : ok now.1 h
    · rw [pass now.1 now.2 h good] at ahead
      exact ⟨fun free => ahead.1 free.2,fun granted => ⟨⟨good,(ahead.2 granted).1⟩,(ahead.2 granted).2⟩⟩
    · rw [stop now.1 now.2 h good] at ahead
      exact ⟨fun free => absurd free.1 good,fun granted => absurd (ahead.2 granted).2 granted⟩

theorem requestWrites_status (l : List Nat) (now : Counters × Status) :
    (WriteFree now.1 l → (l.foldl requestWrite now).2 = now.2) ∧
    ((l.foldl requestWrite now).2 ≠ .blocked → WriteFree now.1 l ∧ (l.foldl requestWrite now).2 = now.2) := by
  refine foldl_status _ _ (fun _ _ mem => (not_mem_nil mem).elim) (fun _ _ _ _ => writeFree_cons) ?_ ?_ l now <;>
    · intro counters status h
      simp only [requestWrite,bump,update_self]
      grind

theorem requestReads_status (l : List Nat) (now : Counters × Status) :
    ((∀ h ∈ l, now.1.cx h ≤ 0) → (l.foldl requestRead now).2 = now.2) ∧
    ((l.foldl requestRead now).2 ≠ .blocked → (∀ h ∈ l, now.1.cx h ≤ 0) ∧ (l.foldl requestRead now).2 = now.2) := by
  refine foldl_status (fun counters h => counters.cx h ≤ 0) (fun counters l => ∀ h ∈ l, counters.cx h ≤ 0)
    (fun _ _ mem => (not_mem_nil mem).elim) (fun _ _ _ _ => forall_mem_cons) ?_ ?_ l now <;>
    · intro counters status h
      simp only [requestRead]
      grind

def Free (counters : Counters) (w r : List Nat) : Prop := WriteFree counters w ∧ ∀ h ∈ r, counters.cx h + w.count h ≤ 0

theorem request_status (counters : Counters) (status : Status) (w r : List Nat) :
    (Free counters w r → (request counters status w r).2 = status) ∧
    ((request counters status w r).2 ≠ .blocked → Free counters w r ∧ (request counters status w r).2 = status) := by
  have first := requestWrites_status w (counters,status)
  have second := requestReads_status r (w.foldl requestWrite (counters,status))
  rw [requestWrites_counters] at second
  refine ⟨?_,?_⟩
  · intro free
    exact (second.1 free.2).trans (first.1 free.1)
  intro granted
  obtain ⟨readable,same⟩ := second.2 granted
  obtain ⟨writable,kept⟩ := first.2 (same ▸ granted)
  exact ⟨⟨writable,readable⟩,same.trans kept⟩

end DbExp.Calvin.Vll
