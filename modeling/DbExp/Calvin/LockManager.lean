import DbExp.Foundation.LockLine
import DbExp.Foundation.Machine

namespace DbExp.Calvin
open Function List
open LockLine

-- src_calvin/scheduler/deterministic_lock_manager. Transactions are known by their
-- pointer; the lock manager reads these two sets of one (`write_set` is not locked).
structure TxnProto (κ : Type) where
  readSet : List κ
  readWriteSet : List κ
  deriving DecidableEq, Repr

structure Env (κ τ : Type) where
  hash : κ → Nat
  isLocal : κ → Bool
  proto : τ → TxnProto κ

-- `Hash` over the bytes of a key; a `char` is signed when it enters the 64-bit xor.
def hash (key : List Int8) : Nat :=
  (key.foldl (fun hash c => (hash ^^^ c.toInt64.toUInt64) * 16777619) (2166136261 : UInt64)).toNat % 1000000

abbrev LockRequest := Request

structure KeysList (κ τ : Type) where
  key : κ
  locksrequest : List (LockRequest τ)

structure Bucket (κ τ : Type) where
  lists : List (KeysList κ τ)
  distinct : (lists.map KeysList.key).Nodup

namespace Bucket
variable {κ τ : Type} [DecidableEq κ]

def empty : Bucket κ τ := ⟨[],nodup_nil⟩

def find (b : Bucket κ τ) (key : κ) : Option (List (LockRequest τ)) :=
  (b.lists.find? fun l => l.key = key).map KeysList.locksrequest

theorem find_isSome {b : Bucket κ τ} : (b.find key).isSome ↔ key ∈ b.lists.map KeysList.key := by
  simp [find]

def set (requests : List (LockRequest τ)) (key : κ) (l : KeysList κ τ) : KeysList κ τ :=
  if l.key = key then {l with locksrequest := requests} else l

theorem set_key (requests : List (LockRequest τ)) (key : κ) : KeysList.key ∘ set requests key = KeysList.key := by
  funext l
  change (set requests key l).key = l.key
  unfold set
  split <;> rfl

section
variable (b : Bucket κ τ)

def put (key : κ) (requests : List (LockRequest τ)) : Bucket κ τ :=
  if known : (b.find key).isSome then ⟨b.lists.map (set requests key),by rw [map_map,set_key]; exact b.distinct⟩
  else ⟨b.lists ++ [⟨key,requests⟩],by
    rw [find_isSome] at known
    rw [map_append,nodup_append]
    exact ⟨b.distinct,by simp,by rintro x old y new rfl; simp at new; exact known (new ▸ old)⟩⟩

def remove (key : κ) : Bucket κ τ :=
  ⟨b.lists.eraseP fun l => l.key = key,b.distinct.sublist ((eraseP_sublist).map _)⟩

theorem find_put (key : κ) (requests : List (LockRequest τ)) (k : κ) :
    (b.put key requests).find k = if k = key then some requests else b.find k := by
  unfold put
  split
  next known =>
    have same : (fun l => decide (l.key = k)) ∘ set requests key = fun l : KeysList κ τ => decide (l.key = k) := by
      funext l
      exact congrArg (fun x => decide (x = k)) (congrFun (set_key requests key) l)
    simp only [find,List.find?_map,same] at known ⊢
    by_cases here : k = key
    · subst here
      obtain ⟨l,got⟩ := Option.isSome_iff_exists.mp (Option.isSome_map ▸ known)
      have mine : l.key = k := by simpa using List.find?_some got
      simp [got,set,mine]
    cases got : b.lists.find? (fun l => decide (l.key = k)) with
    | none => simp [here]
    | some l =>
      have mine : l.key = k := by simpa using List.find?_some got
      simp [here,set,mine]
  next unknown =>
    simp only [find] at unknown ⊢
    rw [List.find?_append]
    by_cases here : k = key
    · subst here
      have none : b.lists.find? (fun l => decide (l.key = k)) = none := by simpa using unknown
      simp [none]
    · simp [here,Ne.symm here]

theorem find_remove (key k : κ) : (b.remove key).find k = if k = key then none else b.find k := by
  obtain ⟨lists,distinct⟩ := b
  unfold remove find
  dsimp only
  induction lists with
  | nil => simp
  | cons l rest ih =>
    obtain ⟨fresh,distinct⟩ := nodup_cons.mp distinct
    by_cases first : l.key = key
    · rw [eraseP_cons_of_pos (by simpa using first)]
      by_cases here : k = key
      · subst here
        have none : rest.find? (fun l => decide (l.key = k)) = none := by
          rw [List.find?_eq_none]
          intro other mem same
          exact fresh (mem_map.mpr ⟨other,mem,(of_decide_eq_true same).trans first.symm⟩)
        simp [none]
      · simp [here,first,Ne.symm here]
    rw [eraseP_cons_of_neg (by simpa using first)]
    have tail := ih distinct
    by_cases mine : l.key = k
    · subst mine; simp [first]
    · simpa [List.find?_cons,mine] using tail

theorem lists_nil (none : ∀ k, b.find k = none) : b.lists = [] := by
  cases here : b.lists with
  | nil => rfl
  | cons l rest =>
    have got : (b.find l.key).isSome := find_isSome.mpr (by simp [here])
    rw [none] at got
    cases got

end

end Bucket

structure LockManager (κ τ : Type) where
  lockTable : Nat → Bucket κ τ
  txnWaits : τ → Option Int
  readyTxns : List τ

section
variable {κ τ : Type} [DecidableEq κ] (env : Env κ τ)

section
variable (table : Nat → Bucket κ τ) (key : κ)

def requestsAt : Option (List (LockRequest τ)) := (table (env.hash key)).find key

def storeAt (requests : List (LockRequest τ)) : Nat → Bucket κ τ :=
  update table (env.hash key) ((table (env.hash key)).put key requests)

def eraseAt : Nat → Bucket κ τ :=
  update table (env.hash key) ((table (env.hash key)).remove key)

theorem requestsAt_storeAt (requests : List (LockRequest τ)) (k : κ) :
    requestsAt env (storeAt env table key requests) k = if k = key then some requests else requestsAt env table k := by
  unfold requestsAt storeAt
  by_cases slot : env.hash k = env.hash key
  · rw [slot,update_self,Bucket.find_put]
  · rw [update_of_ne slot,if_neg (by rintro rfl; exact slot rfl)]

end

theorem requestsAt_eraseAt (table : Nat → Bucket κ τ) (key k : κ) :
    requestsAt env (eraseAt env table key) k = if k = key then none else requestsAt env table k := by
  unfold requestsAt eraseAt
  by_cases slot : env.hash k = env.hash key
  · rw [slot,update_self,Bucket.find_remove]
  · rw [update_of_ne slot,if_neg (by rintro rfl; exact slot rfl)]

variable [DecidableEq τ]

def requestLock (mode : Mode) (fails : List (LockRequest τ) → Bool) (txn : τ) (acc : (Nat → Bucket κ τ) × Int) (key : κ) :
    (Nat → Bucket κ τ) × Int :=
  if env.isLocal key then
    let requests := (requestsAt env acc.1 key).getD []
    if requests.getLast?.map Request.txn ≠ some txn then
      let requests := requests ++ [⟨mode,txn⟩]
      (storeAt env acc.1 key requests,if fails requests then acc.2 + 1 else acc.2)
    else acc
  else acc

def requestWrite : τ → (Nat → Bucket κ τ) × Int → κ → (Nat → Bucket κ τ) × Int :=
  requestLock env .write fun requests => requests.length > 1

def requestRead : τ → (Nat → Bucket κ τ) × Int → κ → (Nat → Bucket κ τ) × Int :=
  requestLock env .read fun requests => requests.any fun r => r.mode = .write

def requestAll (txn : τ) (table : Nat → Bucket κ τ) : (Nat → Bucket κ τ) × Int :=
  (env.proto txn).readSet.foldl (requestRead env txn) ((env.proto txn).readWriteSet.foldl (requestWrite env txn) (table,0))

def lock (m : LockManager κ τ) (txn : τ) : LockManager κ τ :=
  let done := requestAll env txn m.lockTable
  if done.2 > 0 then {m with lockTable := done.1, txnWaits := update m.txnWaits txn (some done.2)}
  else {m with lockTable := done.1, readyTxns := m.readyTxns ++ [txn]}

-- The requests a Release grants. `front` stands before the released request and
-- `rest` after it; cases (a), (b) and (c) are those of the source.
def newOwners (front : List (LockRequest τ)) (target : LockRequest τ) (rest : List (LockRequest τ)) : List τ :=
  match rest with
  | [] => []
  | next :: _ =>
    if front = [] ∧ (target.mode = .write ∨ target.mode = .read ∧ next.mode = .write) then
      (if next.mode = .write then [next.txn] else []) ++ (rest.takeWhile fun r => r.mode = .read).map Request.txn
    else if (front.any fun r => r.mode = .write) = false ∧ target.mode = .write ∧ next.mode = .read then
      (rest.takeWhile fun r => r.mode = .read).map Request.txn
    else []

def grant (m : LockManager κ τ) (txn : τ) : LockManager κ τ :=
  let waits := (m.txnWaits txn).getD 0 - 1
  if waits = 0 then {m with txnWaits := update m.txnWaits txn none, readyTxns := m.readyTxns ++ [txn]}
  else {m with txnWaits := update m.txnWaits txn (some waits)}

-- Release of one key; `none` is the dereference of an iterator at the end of the
-- bucket, for a key nobody has requested.
def releaseKey (txn : τ) (m : LockManager κ τ) (key : κ) : Option (LockManager κ τ) :=
  match requestsAt env m.lockTable key with
  | none => none
  | some requests =>
    match requests.dropWhile fun r => r.txn ≠ txn with
    | [] => some m
    | target :: rest =>
      let front := requests.takeWhile fun r => r.txn ≠ txn
      let granted := (newOwners front target rest).foldl grant m
      some {granted with
        lockTable := if front ++ rest = [] then eraseAt env m.lockTable key else storeAt env m.lockTable key (front ++ rest)}

def release (m : LockManager κ τ) (txn : τ) : Option (LockManager κ τ) :=
  (((env.proto txn).readSet ++ (env.proto txn).readWriteSet).filter env.isLocal).foldlM (releaseKey env txn) m

-- The lock manager with what LockManagerThread does around it: it locks the
-- transactions it is given, takes ready ones off `readyTxns` and has them started,
-- and releases them. `locked`, `started` and `released` are in order of the calls.
structure Scheduler (κ τ : Type) where
  manager : LockManager κ τ
  locked : List τ
  started : List τ
  released : List τ

inductive Call (τ : Type) where
  | lock (txn : τ)
  | start
  | release (txn : τ)
  deriving DecidableEq, Repr

namespace Scheduler

def initial : Scheduler κ τ := ⟨⟨fun _ => .empty,fun _ => none,[]⟩,[],[],[]⟩

def readied (s : Scheduler κ τ) : List τ := s.started ++ s.manager.readyTxns

def step (s : Scheduler κ τ) : Call τ → Option (Scheduler κ τ)
  | .lock txn => some {s with manager := Calvin.lock env s.manager txn, locked := s.locked ++ [txn]}
  | .start =>
    match s.manager.readyTxns with
    | [] => none
    | txn :: rest => some {s with manager := {s.manager with readyTxns := rest}, started := s.started ++ [txn]}
  | .release txn =>
    (Calvin.release env s.manager txn).map fun manager => {s with manager := manager, released := s.released ++ [txn]}

end Scheduler

def machine : Machine (Scheduler κ τ) (Call τ) := ⟨.initial,Scheduler.step env⟩

def localKeys (txn : τ) : List κ := ((env.proto txn).readSet ++ (env.proto txn).readWriteSet).filter env.isLocal

def Proper (s : Scheduler κ τ) : Call τ → Prop
  | .lock txn => txn ∉ s.locked ∧ (localKeys env txn).Nodup
  | .start => True
  | .release txn => txn ∈ s.readied

instance (s : Scheduler κ τ) (call : Call τ) : Decidable (Proper env s call) := by
  unfold Proper; split <;> infer_instance

end
end DbExp.Calvin
