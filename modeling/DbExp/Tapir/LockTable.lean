import DbExp.Tapir.Transaction

namespace DbExp.Tapir.Locking

-- store/common/backend/lockserver.cc. The counters of readers and writers are only
-- printed and are left out.
inductive LockState where
  | unlocked
  | lockedForRead
  | lockedForWrite
  | lockedForReadWrite
  deriving DecidableEq, Repr

structure Time where
  sec : Nat
  usec : Nat
  deriving DecidableEq, Repr

structure Waiter where
  write : Bool
  waitTime : Time
  deriving DecidableEq, Repr

def lockWaitTimeout : Int := 5000

def Waiter.checkTimeout (w : Waiter) (now : Time) : Bool :=
  if w.waitTime.sec < now.sec then true else lockWaitTimeout < (now.usec : Int) - w.waitTime.usec

structure Lock where
  state : LockState
  holders : Finset Nat
  waitQ : List Nat
  waiters : OrdMap Nat Waiter
  deriving DecidableEq

namespace Lock

def new : Lock := ⟨.unlocked,∅,[],.empty⟩

def waitForLock (l : Lock) (requester : Nat) (write : Bool) (now : Time) : Lock :=
  match l.waiters.find requester with
  | some _ => l
  | none => {l with waiters := l.waiters.insert requester ⟨write,now⟩, waitQ := l.waitQ ++ [requester]}

-- Old requests are taken from the front of the queue.
def prune (now : Time) : List Nat → OrdMap Nat Waiter → List Nat × OrdMap Nat Waiter
  | [],waiters => ([],waiters)
  | w :: rest,waiters =>
    if ((waiters.find w).getD ⟨false,⟨0,0⟩⟩).checkTimeout now then prune now rest (waiters.erase w) else (w :: rest,waiters)

section
variable (l : Lock)

def pruned (now : Time) : Lock :=
  {l with waitQ := (prune now l.waitQ l.waiters).1, waiters := (prune now l.waitQ l.waiters).2}

-- The clock is read once to drop old requests and again to stamp a new one.
def tryAcquireLock (requester : Nat) (write : Bool) (now later : Time) : Lock × Bool :=
  let l := l.pruned now
  match l.waitQ with
  | [] => (l,true)
  | front :: rest =>
    if front = requester then ({l with waitQ := rest, waiters := l.waiters.erase requester},true)
    else (l.waitForLock requester write later,false)

def isWriteNext (now : Time) : Lock × Bool :=
  let l := l.pruned now
  match l.waitQ with
  | [] => (l,false)
  | front :: _ => (l,((l.waiters.find front).map Waiter.write).getD false)

def lockForRead (requester : Nat) (now later : Time) : Lock × Bool :=
  match l.state with
  | .unlocked =>
    let (l,mine) := l.tryAcquireLock requester false now later
    if mine then ({l with state := .lockedForRead, holders := insert requester l.holders},true) else (l,false)
  | .lockedForRead =>
    if requester ∈ l.holders then (l,true)
    else
      let (l,writeNext) := l.isWriteNext now
      if writeNext then (l.waitForLock requester false later,false)
      else ({l with holders := insert requester l.holders},true)
  | .lockedForWrite | .lockedForReadWrite =>
    if requester ∈ l.holders then ({l with state := .lockedForReadWrite},true)
    else (l.waitForLock requester false later,false)

def lockForWrite (requester : Nat) (now later : Time) : Lock × Bool :=
  match l.state with
  | .unlocked =>
    let (l,mine) := l.tryAcquireLock requester true now later
    if mine then ({l with state := .lockedForWrite, holders := insert requester l.holders},true) else (l,false)
  | .lockedForRead =>
    if l.holders.card = 1 ∧ requester ∈ l.holders then ({l with state := .lockedForReadWrite},true)
    else (l.waitForLock requester true later,false)
  | .lockedForWrite | .lockedForReadWrite =>
    if requester ∈ l.holders then (l,true) else (l.waitForLock requester true later,false)

def releaseForRead (holder : Nat) : Lock :=
  if holder ∉ l.holders then l
  else
    match l.state with
    | .unlocked | .lockedForWrite => l
    | .lockedForRead =>
      {l with holders := l.holders.erase holder, state := if l.holders.erase holder = ∅ then .unlocked else .lockedForRead}
    | .lockedForReadWrite => {l with state := .lockedForWrite}

def releaseForWrite (holder : Nat) : Lock :=
  if holder ∉ l.holders then l
  else
    match l.state with
    | .unlocked | .lockedForRead => l
    | .lockedForWrite => {l with holders := l.holders.erase holder, state := .unlocked}
    | .lockedForReadWrite => {l with state := .lockedForRead}

end

end Lock

abbrev LockServer := OrdMap String Lock

namespace LockServer

section
variable (s : LockServer) (key : String)

def lock : Lock := (s.find key).getD .new

def lockForRead (requester : Nat) (now later : Time) : LockServer × Bool :=
  (s.insert key ((lock s key).lockForRead requester now later).1,((lock s key).lockForRead requester now later).2)

def lockForWrite (requester : Nat) (now later : Time) : LockServer × Bool :=
  (s.insert key ((lock s key).lockForWrite requester now later).1,((lock s key).lockForWrite requester now later).2)

def releaseForRead (holder : Nat) : LockServer :=
  match s.find key with
  | none => s
  | some l => s.insert key (l.releaseForRead holder)

def releaseForWrite (holder : Nat) : LockServer :=
  match s.find key with
  | none => s
  | some l => s.insert key (l.releaseForWrite holder)

end

end LockServer
end DbExp.Tapir.Locking
