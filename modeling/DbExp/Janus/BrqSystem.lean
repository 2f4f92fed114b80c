import DbExp.Foundation.OrdMap
import DbExp.Janus.RccSafety

namespace DbExp.Janus
open Function
open Status (cmt dcd std)

deriving instance DecidableEq for Carried

structure Site where
  par : Nat
  idx : Nat
  deriving DecidableEq

-- The partitions with their numbers of replicas, and for each transaction the
-- partitions it involves and the columns its pieces there trace.
structure Deployment where
  size : Nat → Nat
  partitions : Txn → List Nat
  columns : Txn → Nat → List Nat

inductive Message where
  | dispatch (t : Txn) (site : Site) (columns : List Nat)
  | dispatchAck (t : Txn) (graph : List Carried)
  | preAccept (t : Txn) (site : Site) (graph : Option (List Carried))
  | preAcceptAck (t : Txn) (par : Nat) (graph : List Carried)
  | accept (t : Txn) (site : Site) (graph : List Carried)
  | acceptAck (t : Txn) (site : Site)
  | commit (t : Txn) (site : Site) (graph : Option (List Carried))
  | inquire (t : Txn) (site asker : Site)
  | inquireAck (t : Txn) (asker : Site) (graph : List Carried)
  deriving DecidableEq

def carry (t : Txn) (v : Vertex) : Carried := ⟨t,v.status,v.parents,v.partition,0⟩

-- The graph of a coordinator. Unlike a server it takes the parents of a new vertex over.
abbrev Graph := OrdMap Txn Vertex

namespace Graph

def aggregateVertex (g : Graph) (c : Carried) : Graph :=
  g.insert c.txn (match g.find c.txn with
    | none => { status := c.status,parents := c.parents,partition := c.partition }
    | some v => Sched.merge v c)

def aggregate (g : Graph) (graph : List Carried) : Graph := graph.foldl aggregateVertex g

def upgradeStatus (g : Graph) (t : Txn) (status : Status) : Graph :=
  match g.find t with
  | none => g
  | some v => g.insert t { v with status := v.status ||| status }

def carried (g : Graph) : List Carried := g.entries.map fun e => carry e.1 e.2

end Graph

def parentSet (graph : List Carried) (t : Txn) : Option (List Txn) :=
  (graph.find? fun c => c.txn = t).map Carried.parents

inductive Phase where
  | dispatch
  | preAccept
  | accept
  | commit
  deriving DecidableEq

-- brq/coord.cc, for one transaction. Replies that are no longer waited for carry an old
-- phase and are dropped; what CommitAck does only ends the transaction.
structure Coord where
  phase : Phase := .dispatch
  dispatched : List (Nat × Nat) := []
  graph : Graph := .empty
  nFastAcceptOks : Nat → Nat := fun _ => 0
  nAcceptOks : Nat → Nat := fun _ => 0
  nFastAcceptGraphs : Nat → List (List Carried) := fun _ => []
  fastPath : Bool := false

inductive GraphCheck where
  | same
  | different
  | few
  deriving DecidableEq

section
variable (d : Deployment)

def sites (par : Nat) : List Site := (List.range (d.size par)).map fun idx => ⟨par,idx⟩

def broadcast (t : Txn) (message : Site → Message) : List Message :=
  (d.partitions t).flatMap fun par => (sites d par).map message

namespace Coord
variable (c : Coord) (t : Txn)

def getFastQuorum (par : Nat) : Nat := d.size par

def getSlowQuorum (par : Nat) : Nat := d.size par / 2 + 1

-- All replicas have to answer with the same parents. The answer is kept once it is known;
-- no reply comes after that.
def fastQuorumGraphCheck (par : Nat) : GraphCheck :=
  let graphs := c.nFastAcceptGraphs par
  if graphs.length < getFastQuorum d par then .few
  else if graphs.all (fun g => decide (parentSet g t = graphs.head?.bind (parentSet · t))) then .same
  else .different

def fastpathPossible : Bool := (d.partitions t).all fun par => c.fastQuorumGraphCheck d t par ≠ .different

def allFastQuorumsReached : Bool := (d.partitions t).all fun par => c.fastQuorumGraphCheck d t par = .same

def acceptQuorumReached : Bool := (d.partitions t).all fun par => ¬ c.nFastAcceptOks par < getSlowQuorum d par

def preAcceptAllSlowQuorumsReached : Bool := (d.partitions t).all fun par => getSlowQuorum d par ≤ c.nFastAcceptOks par

def chooseGraph : Graph :=
  (d.partitions t).foldl (fun g par =>
    (if c.fastPath then (c.nFastAcceptGraphs par).take 1 else c.nFastAcceptGraphs par).foldl Graph.aggregate g) c.graph

def complete : Bool :=
  match c.graph.find t with
  | none => false
  | some v => (d.partitions t).length = v.partition.card

def attached : Option (List Carried) := if c.graph.size = 1 then none else some c.graph.carried

def goPreAccept : Option (Coord × List Message) :=
  if c.complete d t then
    some ({ c with phase := .preAccept },broadcast d t fun site => .preAccept t site c.attached)
  else none

def goAccept : Option (Coord × List Message) :=
  let c := { c with graph := c.chooseGraph d t }
  if c.complete d t then
    let c := { c with phase := .accept,graph := c.graph.upgradeStatus t cmt }
    some (c,broadcast d t fun site => .accept t site c.graph.carried)
  else none

def goCommit : Option (Coord × List Message) :=
  if c.complete d t then
    let c := { c with phase := .commit,graph := c.graph.upgradeStatus t cmt }
    some (c,broadcast d t fun site => .commit t site c.attached)
  else none

def dispatchAck (graph : List Carried) : Option (Coord × List Message) :=
  if c.phase = .dispatch then some ({ c with graph := c.graph.aggregate graph },[]) else none

def preAcceptAck (par : Nat) (graph : List Carried) : Option (Coord × List Message) :=
  if c.phase = .preAccept then
    let c := { c with
      nFastAcceptGraphs := update c.nFastAcceptGraphs par (c.nFastAcceptGraphs par ++ [graph])
      nFastAcceptOks := update c.nFastAcceptOks par (c.nFastAcceptOks par + 1) }
    if c.fastpathPossible d t then
      if c.allFastQuorumsReached d t then
        let c := { c with fastPath := true }
        { c with graph := c.chooseGraph d t }.goCommit d t
      else some (c,[])
    else if c.preAcceptAllSlowQuorumsReached d t then c.goAccept d t
    else some (c,[])
  else some (c,[])

def acceptAck (par : Nat) : Option (Coord × List Message) :=
  if c.phase = .accept then
    let c := { c with nAcceptOks := update c.nAcceptOks par (c.nAcceptOks par + 1) }
    if c.acceptQuorumReached d t then c.goCommit d t else some (c,[])
  else some (c,[])

end Coord

end

-- A server. `last` is who traced a column last, `started` tells that pieces of a
-- transaction were dispatched, and `order` is what CommitExecute has run.
structure Replica where
  sched : Sched := {}
  last : Nat → Option Txn := fun _ => none
  started : Txn → Bool := fun _ => false
  asking : Txn → Bool := fun _ => false
  inquirers : List (Txn × Site) := []
  order : List Txn := []

-- A column's last accessor becomes a parent unless it has been executed.
def traceDep (s : Sched) (t : Txn) : List Nat → (Nat → Option Txn) → List Txn × (Nat → Option Txn)
  | [],last => ([],last)
  | col :: rest,last =>
    let (more,after) := traceDep s t rest (update last col (some t))
    match last col with
    | none => (more,after)
    | some p => (if p = t ∨ (s.info p).executed then more else p :: more,after)

-- The transaction, at most committing, with its parents about which nothing is said.
def selectGraphCmtUkn (s : Sched) (t : Txn) : Option (List Carried) :=
  let v := s.info t
  if ∀ p ∈ v.parents, p ∈ s.vertices then
    some (⟨t,if dcd ≤ v.status then cmt else v.status,v.parents,v.partition,0⟩ ::
      v.parents.map fun p => ⟨p,0,[],(s.info p).partition,0⟩)
  else none

def inquiredGraph (s : Sched) (t : Txn) : Option (List Carried × Sched) :=
  if (s.info t).isDecided then
    (s.findScc t).map fun found => (found.1.map fun u => carry u (found.2.info u),found.2)
  else (selectGraphCmtUkn s t).map fun graph => (graph,s)

namespace Replica
variable (me : Site) (r : Replica)

section
variable (t : Txn)

def onDispatch (columns : List Nat) : Option (Replica × List Message) :=
  let traced := traceDep r.sched t columns r.last
  let s := r.sched.onDispatch me.par t traced.1
  let r := { r with sched := s,last := traced.2,started := update r.started t true }
  if (s.info t).parents = [] then some (r,[.dispatchAck t [⟨t,0,[],{me.par},0⟩]])
  else (selectGraphCmtUkn s t).map fun graph => (r,[.dispatchAck t graph])

def onPreAccept (graph : List Carried) : Replica × List Message :=
  ({ r with sched := ((r.sched.aggregate graph).triggerCheck graph).setInvolved me.par t },[.preAccept t me none])

def onPreAcceptWoGraph (columns : List Nat) : Option (Replica × List Message) :=
  let traced := if r.started t = false ∧ (r.sched.info t).status < cmt then traceDep r.sched t columns r.last else ([],r.last)
  match r.sched.onPreAccept me.par t traced.1 with
  | none => none
  | some s => (selectGraphCmtUkn s t).map fun graph =>
      ({ r with sched := s,last := traced.2,started := update r.started t true },[.preAcceptAck t me.par graph])

def onAccept (graph : List Carried) : Option (Replica × List Message) :=
  (r.sched.onAccept me.par t 0 graph).map fun s => ({ r with sched := s },[.acceptAck t me])

def onCommit (graph : List Carried) : Replica :=
  let s := r.sched.getOrCreateDTxn me.par t
  { r with sched := if (s.info t).executed then s else (s.aggregate graph).triggerCheck graph }

def onCommitWoGraph : Option Replica :=
  let s := r.sched.getOrCreateDTxn me.par t
  let v := s.info t
  if v.executed then some { r with sched := s }
  else if v.fullyDispatched then
    some { r with
      sched := { s.set t { v with status := v.status ||| dcd,executed := true } with waitlist := s.waitlist ∪ v.toChecks }
      order := r.order ++ if v.involve me.par then [t] else [] }
  else none

def onInquire (asker : Site) : Option (Replica × List Message) :=
  let s := r.sched.getOrCreateDTxn me.par t
  if (s.info t).involve me.par then
    if cmt ≤ (s.info t).status then
      (inquiredGraph s t).map fun answer => ({ r with sched := answer.2 },[.inquireAck t asker answer.1])
    else
      some ({ r with
        sched := { s with waitlist := insert t s.waitlist }
        inquirers := r.inquirers ++ [(t,asker)] },[])
  else none

end

def inquireAck (graph : List Carried) : Replica :=
  { r with sched := (r.sched.aggregate graph).triggerCheck graph }

-- An unknown transaction of other partitions is asked about, once, at a replica of the
-- first of its partitions.
def inquireAboutIfNeeded (v : Txn) (site : Site) : Option (Replica × List Message) :=
  let d := r.sched.info v
  if d.status ≤ std ∧ r.asking v = false ∧ d.involve me.par = false then
    if site.par ∈ d.partition ∧ ∀ par ∈ d.partition, site.par ≤ par then
      some ({ r with asking := update r.asking v true },[.inquire v site me])
    else none
  else some (r,[])

def answerInquirers (s : Sched) (v : Txn) : List (Txn × Site) → Option (Sched × List Message)
  | [] => some (s,[])
  | (t,asker) :: rest =>
    if t = v then do
      let (graph,s) ← inquiredGraph s v
      let (s,more) ← answerInquirers s v rest
      return (s,.inquireAck v asker graph :: more)
    else answerInquirers s v rest

def visit (v : Txn) (nearest : Site) : Option (Replica × List Message) := do
  let (r,asked) ← r.inquireAboutIfNeeded me v nearest
  let s ← r.sched.visit me.par v
  let ran := match r.sched.executing me.par v with
    | some (spot,scc) => scc.filter fun u => (spot.info u).involve me.par
    | none => []
  if cmt ≤ (r.sched.info v).status ∧ (r.sched.info v).executed = false then
    let (s,answers) ← answerInquirers s v r.inquirers
    return ({ r with
      sched := s
      order := r.order ++ ran
      inquirers := r.inquirers.filter fun asked => asked.1 ≠ v },asked ++ answers)
  else return ({ r with sched := s,order := r.order ++ ran },asked)

end Replica

-- All coordinators and servers. A message is delivered once, at any time. `accepted` notes
-- who has acknowledged an Accept.
structure System where
  coords : Txn → Coord := fun _ => {}
  replicas : Site → Replica := fun _ => {}
  network : List Message := []
  accepted : List (Txn × Site) := []

inductive Event where
  | dispatch (t : Txn) (site : Site) (columns : List Nat)
  | preAccept (t : Txn)
  | deliver (m : Message)
  | visit (site : Site) (v : Txn) (nearest : Site)
  deriving DecidableEq

def Message.dispatches (t : Txn) : Message → Bool
  | .dispatch u _ _ => u = t
  | .dispatchAck u _ => u = t
  | _ => false

namespace System
variable (d : Deployment) (s : System)

def coordDoes (t : Txn) (e : Coord × List Message) : System :=
  { s with coords := update s.coords t e.1,network := s.network ++ e.2 }

def replicaDoes (site : Site) (e : Replica × List Message) : System :=
  { s with replicas := update s.replicas site e.1,network := s.network ++ e.2 }

def receive : Message → Option System
  | .dispatch t site columns => ((s.replicas site).onDispatch site t columns).map (s.replicaDoes site)
  | .dispatchAck t graph => ((s.coords t).dispatchAck graph).map (s.coordDoes t)
  | .preAccept t site (some graph) => some (s.replicaDoes site ((s.replicas site).onPreAccept site t graph))
  | .preAccept t site none =>
    ((s.replicas site).onPreAcceptWoGraph site t (d.columns t site.par)).map (s.replicaDoes site)
  | .preAcceptAck t par graph => ((s.coords t).preAcceptAck d t par graph).map (s.coordDoes t)
  | .accept t site graph => ((s.replicas site).onAccept site t graph).map fun e =>
      { s.replicaDoes site e with accepted := (t,site) :: s.accepted }
  | .acceptAck t site => ((s.coords t).acceptAck d t site.par).map (s.coordDoes t)
  | .commit t site (some graph) => some (s.replicaDoes site ((s.replicas site).onCommit site t graph,[]))
  | .commit t site none => ((s.replicas site).onCommitWoGraph site t).map fun r => s.replicaDoes site (r,[])
  | .inquire t site asker => ((s.replicas site).onInquire site t asker).map (s.replicaDoes site)
  | .inquireAck _ asker graph => some (s.replicaDoes asker ((s.replicas asker).inquireAck graph,[]))

def step : Event → Option System
  | .dispatch t site columns =>
    if (s.coords t).phase = .dispatch ∧ site ∈ (d.partitions t).flatMap (sites d) ∧ ∀ col ∈ columns, col ∈ d.columns t site.par then
      some (s.coordDoes t ({ s.coords t with
        dispatched := columns.map (fun col => (site.par,col)) ++ (s.coords t).dispatched },[.dispatch t site columns]))
    else none
  | .preAccept t =>
    if (s.coords t).phase = .dispatch ∧ (∀ par ∈ d.partitions t, ∀ col ∈ d.columns t par, (par,col) ∈ (s.coords t).dispatched) ∧
        (∀ m ∈ s.network, m.dispatches t = false) then
      ((s.coords t).goPreAccept d t).map (s.coordDoes t)
    else none
  | .deliver m => if m ∈ s.network then receive d { s with network := s.network.erase m } m else none
  | .visit site v nearest => ((s.replicas site).visit site v nearest).map (s.replicaDoes site)

end System

def brq (d : Deployment) : Machine System Event := ⟨{},System.step d⟩

end DbExp.Janus
