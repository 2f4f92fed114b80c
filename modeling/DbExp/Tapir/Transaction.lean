import DbExp.Foundation.OrdSearch

namespace DbExp.Tapir

-- store/common/timestamp.cc: compared by time, then by client id.
structure Timestamp where
  timestamp : Nat
  id : Nat
  deriving Repr

namespace Timestamp

instance : LinearOrder Timestamp :=
  LinearOrder.lift' (fun t => toLex (t.timestamp,t.id)) (by
    rintro ⟨a,b⟩ ⟨c,d⟩ same
    simpa using same)

theorem lt_iff (a b : Timestamp) : a < b ↔ if a.timestamp = b.timestamp then a.id < b.id else a.timestamp < b.timestamp := by
  have order : a < b ↔ toLex (a.timestamp,a.id) < toLex (b.timestamp,b.id) := Iff.rfl
  rw [order,Prod.Lex.toLex_lt_toLex]
  split
  next same =>
    simp [same]
  next apart =>
    simp [apart]

def zero : Timestamp := ⟨0,0⟩

def ofTime (t : Nat) : Timestamp := ⟨t,0⟩

def isValid (t : Timestamp) : Bool := 0 < t.timestamp ∧ 0 < t.id

def setTimestamp (t : Timestamp) (time : Nat) : Timestamp := {t with timestamp := time}

end Timestamp

-- store/common/transaction.h
inductive ReplyCode where
  | ok
  | fail
  | retry
  | abstain
  | timeout
  | networkFailure
  deriving DecidableEq, Repr

def ReplyCode.found : Option α → ReplyCode × Option α
  | some value => (.ok,some value)
  | none => (.fail,none)

structure Transaction where
  readSet : OrdMap String Timestamp
  writeSet : OrdMap String String
  deriving DecidableEq

namespace Transaction

def empty : Transaction := ⟨.empty,.empty⟩

section
variable (txn : Transaction)

def addReadSet (key : String) (readTime : Timestamp) : Transaction :=
  {txn with readSet := txn.readSet.insert key readTime}

def addWriteSet (key value : String) : Transaction :=
  {txn with writeSet := txn.writeSet.insert key value}

def reads (key : String) : Bool := (txn.readSet.find key).isSome

def writes (key : String) : Bool := (txn.writeSet.find key).isSome

end

end Transaction
end DbExp.Tapir
