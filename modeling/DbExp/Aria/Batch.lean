import DbExp.Foundation.BitField
import DbExp.Foundation.Machine
import DbExp.Foundation.Serial

namespace DbExp.Aria
open Function
open BitField

section
variable (value : Word)

-- protocol/Aria/AriaHelper.h: [epoch (24) | read-rts (20) | write-wts (20)]
def getEpoch : Nat := get 40 24 value
def setEpoch (epoch : Nat) : Word := set 40 24 value epoch
def getRts : Nat := get 20 20 value
def setRts (rts : Nat) : Word := set 20 20 value rts
def getWts : Nat := get 0 20 value
def setWts (wts : Nat) : Word := set 0 20 value wts

end

-- `reserve_read` and `reserve_write` differ in the timestamp they keep. Their
-- compare-and-swap loop is one step; `none` is the failed CHECK that the epoch does
-- not go back. The reserving id arrives as a `uint32_t`.
def reserve (getTs : Word → Nat) (setTs : Word → Nat → Word) (a : Word) (epoch tid : Nat) : Option Word :=
  let tid := tid % 2^32
  if epoch < getEpoch a then none
  else if getEpoch a < epoch then some (setTs (setEpoch 0 epoch) tid)
  else if getTs a < tid ∧ getTs a ≠ 0 then some a
  else some (setTs a tid)

def reserveRead : Word → Nat → Nat → Option Word := reserve getRts setRts
def reserveWrite : Word → Nat → Nat → Option Word := reserve getWts setWts

structure Context where
  readOnlyOptmization : Bool
  reorderingOptmization : Bool
  snapshotIsolation : Bool
  deriving DecidableEq, Repr

-- A transaction after its reads: keys with their local index bit, and keys to write
-- with the value its procedure leaves in its storage for what it has read.
structure Transaction (κ ν : Type) where
  id : Nat
  abortNoRetry : Bool
  readSet : List (κ × Bool)
  writeSet : List (κ × (List ν → ν))

structure Flags where
  raw : Bool := false
  war : Bool := false
  waw : Bool := false
  deriving DecidableEq, Repr

inductive Reservation (κ : Type) where
  | read (key : κ)
  | write (key : κ)
  deriving DecidableEq, Repr

section
variable {κ ν : Type}

namespace Transaction

section
variable (txn : Transaction κ ν)

def isReadOnly : Bool := txn.writeSet.isEmpty

def checkedReads : List κ := (txn.readSet.filter fun r => r.2 = false).map Prod.fst

def toSerial : Serial.Txn κ ν := ⟨txn.readSet.map Prod.fst,txn.writeSet⟩

def writtenKeys : List κ := txn.writeSet.map Prod.fst

end

end Transaction

variable (context : Context)

def exempt (txn : Transaction κ ν) : Bool := context.readOnlyOptmization && txn.isReadOnly

def reservations (txn : Transaction κ ν) : List (Reservation κ) :=
  if exempt context txn then [] else txn.checkedReads.map .read ++ txn.writtenKeys.map .write

def analyzeDependency (epoch : Nat) (words : κ → Word) (txn : Transaction κ ν) : Flags :=
  if exempt context txn then {}
  else
    { raw := txn.checkedReads.any fun k =>
        getEpoch (words k) = epoch ∧ getWts (words k) < txn.id ∧ getWts (words k) ≠ 0
      war := txn.writtenKeys.any fun k =>
        getEpoch (words k) = epoch ∧ getRts (words k) < txn.id ∧ getRts (words k) ≠ 0
      waw := txn.writtenKeys.any fun k =>
        getEpoch (words k) = epoch ∧ getWts (words k) < txn.id ∧ getWts (words k) ≠ 0 }

-- The choice in commit_transactions.
def commits (txn : Transaction κ ν) (flags : Flags) : Bool :=
  if exempt context txn then true
  else if flags.waw then false
  else if context.snapshotIsolation then true
  else if context.reorderingOptmization then !flags.war || !flags.raw
  else !flags.raw

end

-- A batch on one node: its transactions, and the database and reservation words the
-- batches before it left.
structure Batch (n : Nat) (κ ν : Type) where
  context : Context
  epoch : Nat
  txns : Fin n → Transaction κ ν
  db : κ → ν
  words : κ → Word

-- Where a transaction stands. A worker takes the steps of its transactions in an
-- order of its own, so every interleaving of any number of workers is one of the
-- transactions' steps.
inductive Stage (κ ν : Type) where
  | reserving (todo : List (Reservation κ))
  | checked (flags : Flags)
  | committing (todo : List (κ × ν))
  | aborted
  deriving DecidableEq, Repr

structure State (n : Nat) (κ ν : Type) where
  words : κ → Word
  db : κ → ν
  stages : Fin n → Stage κ ν

inductive Step (n : Nat) where
  | reserve (i : Fin n)
  | analyze (i : Fin n)
  | decide (i : Fin n)
  | write (i : Fin n)
  deriving DecidableEq, Repr

def Stage.Reserved : Stage κ ν → Prop
  | .reserving (_ :: _) => False
  | _ => True

instance : DecidablePred (Stage.Reserved : Stage κ ν → Prop) := fun stage => by
  unfold Stage.Reserved; split <;> infer_instance

section
variable {κ ν : Type} [DecidableEq κ] (b : Batch n κ ν)

def reserveKey (words : κ → Word) (tid : Nat) : Reservation κ → Option (κ → Word)
  | .read key => (reserveRead (words key) b.epoch tid).map (update words key)
  | .write key => (reserveWrite (words key) b.epoch tid).map (update words key)

def effects (i : Fin n) : List (κ × ν) := (b.txns i).toSerial.effects ((b.txns i).toSerial.observe b.db)

def initial : State n κ ν where
  words := b.words
  db := b.db
  stages := fun i => if (b.txns i).abortNoRetry then .aborted else .reserving (reservations b.context (b.txns i))

def step (s : State n κ ν) : Step n → Option (State n κ ν)
  | .reserve i =>
    match s.stages i with
    | .reserving (r :: rest) =>
      (reserveKey b s.words (b.txns i).id r).map fun words =>
        {s with words := words, stages := update s.stages i (.reserving rest)}
    | _ => none
  | .analyze i =>
    match s.stages i with
    | .reserving [] =>
      some {s with stages := update s.stages i (.checked (analyzeDependency b.context b.epoch s.words (b.txns i)))}
    | _ => none
  | .decide i =>
    match s.stages i with
    | .checked flags =>
      let verdict := if commits b.context (b.txns i) flags then .committing (effects b i) else .aborted
      some {s with stages := update s.stages i verdict}
    | _ => none
  | .write i =>
    match s.stages i with
    | .committing (w :: rest) =>
      some {s with db := update s.db w.1 w.2, stages := update s.stages i (.committing rest)}
    | _ => none

def machine : Machine (State n κ ν) (Step n) := ⟨initial b,step b⟩

-- The phase barrier: no dependency check before every reservation is made.
def ReservedFirst (s : State n κ ν) : Step n → Prop
  | .analyze _ => ∀ j, (s.stages j).Reserved
  | _ => True

instance (s : State n κ ν) (a : Step n) : Decidable (ReservedFirst s a) := by
  unfold ReservedFirst; split <;> infer_instance

end

namespace State

def Committed (s : State n κ ν) (i : Fin n) : Prop := ∃ todo, s.stages i = .committing todo

def Complete (s : State n κ ν) : Prop := ∀ i, s.stages i = .committing [] ∨ s.stages i = .aborted

instance [DecidableEq κ] [DecidableEq ν] (s : State n κ ν) : Decidable s.Complete := by unfold State.Complete; infer_instance

end State
end DbExp.Aria
