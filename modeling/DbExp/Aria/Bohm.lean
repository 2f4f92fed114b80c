import DbExp.Foundation.Machine
import DbExp.Foundation.Serial

namespace DbExp.Bohm
open Serial

-- common/MVCCHashMap.h and core/Table.h (MVCCTable): the versions of a key, newest
-- first. `placeholder` is 0 once the value may be read.
structure Row (ν : Type) where
  version : Nat
  placeholder : Nat
  value : ν
  deriving DecidableEq, Repr

section
variable {ν : Type}

def insert (rows : List (Row ν)) (value : ν) (version : Nat) : Option (List (Row ν)) :=
  match rows with
  | [] => some [⟨version,version,value⟩]
  | head :: _ => if version > head.version then some (⟨version,version,value⟩ :: rows) else none

def searchPrev (rows : List (Row ν)) (version : Nat) : Option (Row ν) := rows.find? fun r => r.version < version

def search (rows : List (Row ν)) (version : Nat) : Option (Row ν) := rows.find? fun r => r.version = version

def update (value : ν) (version : Nat) : List (Row ν) → List (Row ν)
  | [] => []
  | r :: rest => if r.version = version then {r with placeholder := 0, value := value} :: rest else r :: update value version rest

end

def getTid (epoch pos : Nat) : Nat := (epoch <<< 32 ||| pos) % 2^64

-- The versions a key has before a batch of this epoch: some, all ready, each newer
-- than the next and older than the batch.
structure Chain (epoch : Nat) (rows : List (Row ν)) : Prop where
  some : rows ≠ []
  sorted : rows.Pairwise fun x y => y.version < x.version
  ready : ∀ r ∈ rows, r.placeholder = 0
  older : ∀ r ∈ rows, r.version < epoch * 2^32

-- A batch of freshly generated transactions on one node. `prepared` is what the
-- storage of a transaction held for a key when its placeholder was inserted. The
-- epoch is a `uint32_t` and the batch size comes from a 32-bit flag.
structure Batch (κ ν : Type) where
  epoch : Nat
  txns : List (Txn κ ν)
  prepared : Nat → κ → ν
  rows : κ → List (Row ν)
  workerNum : Nat
  singleSpin : Bool
  epoch_fits : epoch < 2^32
  size_fits : txns.length < 2^31
  workers : 0 < workerNum
  once : ∀ t ∈ txns, t.written.Nodup
  chains : ∀ k, Chain epoch (rows k)

inductive Phase (κ ν : Type) where
  | reading (left : Nat) (notReady : Bool)
  | committing (todo : List (κ × ν))
  deriving DecidableEq, Repr

structure Worker (κ ν : Type) where
  current : Nat
  phase : Phase κ ν
  deriving DecidableEq, Repr

-- `values` is the storage of each transaction: what it has read so far; `none`
-- while the read request bit is set.
structure State (κ ν : Type) (workers : Nat) where
  rows : κ → List (Row ν)
  values : Nat → List (Option ν)
  workers : Fin workers → Worker κ ν

section
variable {κ ν : Type} [DecidableEq κ] (b : Batch κ ν)

def Batch.tid (i : Nat) : Nat := getTid b.epoch i

def insertKeys (i : Nat) (keys : List κ) (rows : κ → List (Row ν)) : Option (κ → List (Row ν)) :=
  keys.foldlM (fun rows key => (insert (rows key) (b.prepared i key) (b.tid i)).map (Function.update rows key)) rows

-- Each worker inserts the placeholders of its partitions, all in transaction order,
-- so for every key they are inserted in that order.
def insertWriteSets (i : Nat) : List (Txn κ ν) → (κ → List (Row ν)) → Option (κ → List (Row ν))
  | [],rows => some rows
  | t :: rest,rows => (insertKeys b i t.written rows).bind (insertWriteSets (i+1) rest)

def begin (i : Nat) : Phase κ ν := .reading ((b.txns[i]?.map fun t => t.reads.length).getD 0) false

def initial (rows : κ → List (Row ν)) : State κ ν b.workerNum where
  rows := rows
  values := fun i => List.replicate ((b.txns[i]?.map fun t => t.reads.length).getD 0) none
  workers := fun w => ⟨w,begin b w⟩

abbrev St := State κ ν b.workerNum

section
variable (s : St b) (w : Fin b.workerNum)

def setPhase (phase : Phase κ ν) : St b :=
  {s with workers := Function.update s.workers w {s.workers w with phase := phase}}

-- The read handler on one key of the read set. A key already read is skipped. With
-- `singleSpin` a worker stays at an unready placeholder, else it goes on and the
-- execution aborts at its end.
def readKey (t : Txn κ ν) (j : Nat) (notReady : Bool) : Option (St b) :=
  let i := (s.workers w).current
  match (s.values i)[j]?,t.reads[j]? with
  | some (some _),some _ => some (setPhase b s w (.reading j notReady))
  | some none,some key =>
    match searchPrev (s.rows key) (b.tid i) with
    | none => none
    | some row =>
      if row.placeholder = 0 then
        some (setPhase b {s with values := Function.update s.values i ((s.values i).set j (some row.value))} w (.reading j notReady))
      else if b.singleSpin then some s
      else some (setPhase b s w (.reading j true))
  | _,_ => none

def commitKey (key : κ) (value : ν) (rest : List (κ × ν)) : Option (St b) :=
  let i := (s.workers w).current
  match search (s.rows key) (b.tid i) with
  | none => none
  | some row =>
    if row.placeholder = 0 then none
    else some (setPhase b {s with rows := Function.update s.rows key (update value (b.tid i) (s.rows key))} w (.committing rest))

def step : Option (St b) :=
  let i := (s.workers w).current
  match b.txns[i]? with
  | none => none
  | some t =>
    match (s.workers w).phase with
    | .reading (j+1) notReady => readKey b s w t j notReady
    | .reading 0 true => some (setPhase b s w (begin b i))
    | .reading 0 false => some (setPhase b s w (.committing (t.effects (s.values i).reduceOption)))
    | .committing ((key,value) :: rest) => commitKey b s w key value rest
    | .committing [] =>
      some {s with workers := Function.update s.workers w ⟨i + b.workerNum,begin b (i + b.workerNum)⟩}

end

def machine (rows : κ → List (Row ν)) : Machine (St b) (Fin b.workerNum) := ⟨initial b rows,step b⟩

def workerOf (i : Nat) : Fin b.workerNum := ⟨i % b.workerNum,Nat.mod_lt _ b.workers⟩

def Finished (s : St b) (i : Nat) : Prop := i < (s.workers (workerOf b i)).current

def Complete (s : St b) : Prop := ∀ i, i < b.txns.length → Finished b s i

instance (s : St b) (i : Nat) : Decidable (Finished b s i) := inferInstanceAs (Decidable (_ < _))

instance (s : St b) : Decidable (Complete b s) := inferInstanceAs (Decidable (∀ i, i < b.txns.length → Finished b s i))

end
end DbExp.Bohm
