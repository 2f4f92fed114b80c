import DbExp.Foundation.Machine
import DbExp.Foundation.DepthFirst
import DbExp.Janus.RccGraph
import Mathlib.Data.Finset.Lattice.Fold

namespace DbExp.Janus
open StrongConnect DepthFirst

-- The status of a transaction is a set of bits; it is compared as a number.
abbrev Status := Nat

namespace Status
def std : Status := 0x01
def pac : Status := 0x02
def cmt : Status := 0x08
def dcd : Status := 0x10
def abt : Status := 0x40
end Status

inductive InvolveFlag where
  | unknown
  | involved
  | foreign
  deriving DecidableEq

structure Vertex where
  status : Status := 0
  parents : List Txn := []
  partition : Finset Nat := ∅
  maxSeenBallot : Nat := 0
  involveFlag : InvolveFlag := .unknown
  fullyDispatched : Bool := false
  executed : Bool := false
  scc : Option (List Txn) := none
  toChecks : Finset Txn := ∅
  deriving DecidableEq

namespace Vertex

def isAborted (v : Vertex) : Bool := v.status &&& Status.abt != 0
def isCommitting (v : Vertex) : Bool := v.status &&& Status.cmt != 0
def isDecided (v : Vertex) : Bool := v.status &&& Status.dcd != 0

def involve (own : Nat) (v : Vertex) : Bool :=
  match v.involveFlag with
  | .involved => true
  | .foreign => false
  | .unknown => decide (own ∈ v.partition)

def noteInvolve (own : Nat) (v : Vertex) : Vertex :=
  if v.involveFlag = .unknown ∧ v.isCommitting then
    { v with involveFlag := if own ∈ v.partition then .involved else .foreign }
  else v

def updateStatus (v : Vertex) (status : Status) : Vertex :=
  if v.status < status then { v with status := status } else v

end Vertex

def insertParent (t : Txn) : List Txn → List Txn
  | [] => [t]
  | p :: rest => if t < p then t :: p :: rest else if t = p then p :: rest else p :: insertParent t rest

def insertParents (parents more : List Txn) : List Txn := more.foldl (fun all t => insertParent t all) parents

structure Carried where
  txn : Txn
  status : Status
  parents : List Txn
  partition : Finset Nat
  maxAcceptedBallot : Nat := 0

structure Sched where
  vertices : Finset Txn := ∅
  info : Txn → Vertex := fun _ => {}
  waitlist : Finset Txn := ∅

namespace Sched

section
variable (s : Sched)

def set (t : Txn) (v : Vertex) : Sched := { s with info := Function.update s.info t v }

def parents (t : Txn) : List Txn := (s.info t).parents

-- A vertex that is new to this server takes the status and the partitions over, not
-- the parents.
def findOrCreateV (c : Carried) : Sched :=
  if c.txn ∈ s.vertices then s
  else { s.set c.txn { status := c.status,partition := c.partition } with vertices := insert c.txn s.vertices }

def merge (v : Vertex) (c : Carried) : Vertex :=
  let v :=
    if v.maxSeenBallot = 0 ∧ v.status ≤ Status.std ∧ c.status ≤ Status.std then
      { v with parents := insertParents v.parents c.parents }
    else if Status.cmt ≤ c.status then
      if v.status < c.status then { v with parents := c.parents } else v
    else if Status.pac ≤ c.status ∧ v.status ≤ c.status ∧ v.maxSeenBallot ≤ c.maxAcceptedBallot then
      { v with parents := c.parents,maxSeenBallot := c.maxAcceptedBallot }
    else v
  { v with partition := v.partition ∪ c.partition,status := v.status ||| c.status }

def aggregateVertex (c : Carried) : Sched :=
  let s := s.findOrCreateV c
  s.set c.txn (merge (s.info c.txn) c)

def aggregate (graph : List Carried) : Sched := graph.foldl aggregateVertex s

def triggerCheck (graph : List Carried) : Sched :=
  { s with waitlist := s.waitlist ∪ (graph.map Carried.txn).toFinset }

end

section
variable (own : Nat) (s : Sched) (t : Txn)

def getOrCreateDTxn : Sched :=
  let known : Sched := if t ∈ s.vertices then s else { s.set t {} with vertices := insert t s.vertices }
  known.set t { known.info t with partition := insert own (known.info t).partition }

def onDispatch (traced : List Txn) : Sched :=
  let s := s.getOrCreateDTxn own t
  s.set t ({ s.info t with parents := insertParents (s.info t).parents traced }.updateStatus Status.std)

-- What a PreAccept with a graph does after it has aggregated it and before what one
-- without a graph does.
def setInvolved : Sched :=
  let s := s.getOrCreateDTxn own t
  s.set t { s.info t with involveFlag := .involved }

def onPreAccept (traced : List Txn) : Option Sched :=
  let s := s.getOrCreateDTxn own t
  let v := (s.info t).updateStatus Status.pac
  if 0 < v.maxSeenBallot then some (s.set t v)
  else if v.fullyDispatched then none
  else if v.status < Status.cmt then
    some (s.set t { v with parents := insertParents v.parents traced,fullyDispatched := true })
  else
    let s := s.set t { v with fullyDispatched := true }
    some { s with waitlist := insert t s.waitlist }

def onAccept (ballot : Nat) (graph : List Carried) : Option Sched :=
  let s := s.getOrCreateDTxn own t
  if ballot < (s.info t).maxSeenBallot then none
  else some ((s.set t { s.info t with maxSeenBallot := ballot }).aggregate graph)

end

section
variable (s : Sched)

def addCheck (u t : Txn) : Sched := s.set u { s.info u with toChecks := insert t (s.info u).toChecks }

def hintCmt (t : Txn) : Hint :=
  if (s.info t).executed || (s.info t).isAborted then .skip
  else if Status.cmt ≤ (s.info t).status then .ok
  else .exit

def hintFns (scc : List Txn) (t : Txn) : Hint :=
  if (s.info t).executed then .skip
  else if Status.dcd ≤ (s.info t).status then .ok
  else if t ∈ scc then .ok
  else .exit

-- A traversal that is left early notes at the vertex it was left at who waits for it. A
-- parent that is not in the graph is fatal.
def ancestors (hint : Txn → Hint) (v : Txn) : Option (Bool × Sched) :=
  match walk s.parents s.vertices hint v with
  | .missing => none
  | .exit u => some (false,s.addCheck u v)
  | .done _ => some (true,s)

def allAncCmt (v : Txn) : Option (Bool × Sched) := s.ancestors s.hintCmt v

def allAncFns (scc : List Txn) : Option (Bool × Sched) :=
  match scc with
  | [] => none
  | first :: _ => s.ancestors (s.hintFns scc) first

def hintScc (t : Txn) : Hint := if (s.info t).scc.isSome then .skip else .ok

-- The search for a component comes to every ancestor that has none yet; again a missing
-- parent is fatal.
def findScc (v : Txn) : Option (List Txn × Sched) :=
  if (s.info v).scc.isNone ∧ walk s.parents s.vertices s.hintScc v = .missing then none
  else
    let found := findSccPred s.parents s.vertices.card (fun u => (s.info u).scc) v
    some (found.1,{ s with info := fun u => { s.info u with scc := found.2 u } })

def decideScc (scc : List Txn) : Sched :=
  { s with info := fun u => if u ∈ scc then { s.info u with status := (s.info u).status ||| Status.dcd } else s.info u }

end

def fullyDispatched (own : Nat) : Sched → List Txn → Bool × Sched
  | s,[] => (true,s)
  | s,t :: rest =>
    let involved := (s.info t).involve own
    let s := s.set t ((s.info t).noteInvolve own)
    if involved && !(s.info t).fullyDispatched then (false,s) else fullyDispatched own s rest

def execute (s : Sched) (scc : List Txn) : Sched :=
  { s with info := fun u => if u ∈ scc then { s.info u with executed := true } else s.info u }

inductive Verdict where
  | idle (s : Sched)
  | run (s : Sched) (scc : List Txn)

section
variable (own : Nat) (s : Sched) (v : Txn)

def judge : Option Verdict :=
  if Status.cmt ≤ (s.info v).status ∧ (s.info v).executed = false then do
    let (committed,s) ← s.allAncCmt v
    if committed then
      let (scc,s) ← s.findScc v
      let (finished,s) ← (s.decideScc scc).allAncFns scc
      if finished then
        let (dispatched,s) := s.fullyDispatched own scc
        return if dispatched then .run s scc else .idle s
      else return .idle s
    else return .idle s
  else return .idle s

def adjust : Sched :=
  let d := s.info v
  let asked := if !d.executed && !d.isAborted && d.isDecided then d.noteInvolve own else d
  if d.executed || d.isAborted || d.isDecided && !d.involve own then
    { s.set v { asked with toChecks := ∅ } with waitlist := (s.waitlist ∪ d.toChecks).erase v }
  else { s.set v asked with waitlist := s.waitlist.erase v }

def visit : Option Sched :=
  if v ∈ s.waitlist then
    (s.judge own v).map fun
      | .idle s => s.adjust own v
      | .run s scc => (s.execute scc).adjust own v
  else none

end

inductive Action where
  | dispatch (t : Txn) (traced : List Txn)
  | setInvolved (t : Txn)
  | preAccept (t : Txn) (traced : List Txn)
  | accept (t : Txn) (ballot : Nat) (graph : List Carried)
  | aggregate (graph : List Carried)
  | visit (v : Txn)

def step (own : Nat) (s : Sched) : Action → Option Sched
  | .dispatch t traced => some (s.onDispatch own t traced)
  | .setInvolved t => some (s.setInvolved own t)
  | .preAccept t traced => s.onPreAccept own t traced
  | .accept t ballot graph => s.onAccept own t ballot graph
  | .aggregate graph => some ((s.aggregate graph).triggerCheck graph)
  | .visit v => s.visit own v

end Sched

def sched (own : Nat) : Machine Sched Sched.Action := ⟨{},Sched.step own⟩

end DbExp.Janus
