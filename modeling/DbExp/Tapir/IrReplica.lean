import DbExp.Tapir.IrRecord

namespace DbExp.Tapir.Ir

-- replication/ir/ir-proto.proto
structure ReplyInconsistentMessage (n : Nat) where
  view : Nat
  replicaIdx : Fin n
  opid : Opid
  finalized : Bool
  deriving DecidableEq, Repr

structure ConfirmMessage (n : Nat) where
  view : Nat
  replicaIdx : Fin n
  opid : Opid
  deriving DecidableEq, Repr

structure ReplyConsensusMessage (n : Nat) where
  view : Nat
  replicaIdx : Fin n
  opid : Opid
  result : String
  finalized : Bool
  deriving DecidableEq, Repr

structure DoViewChangeMessage (n : Nat) where
  replicaIdx : Fin n
  record : Option Record
  newView : Nat
  latestNormalView : Nat
  deriving DecidableEq

structure StartViewMessage where
  record : Record
  newView : Nat
  deriving DecidableEq

inductive Message (n : Nat) where
  | proposeInconsistent (req : Request)
  | replyInconsistent (msg : ReplyInconsistentMessage n)
  | finalizeInconsistent (opid : Opid)
  | confirm (msg : ConfirmMessage n)
  | proposeConsensus (req : Request)
  | replyConsensus (msg : ReplyConsensusMessage n)
  | finalizeConsensus (opid : Opid) (result : String)
  | doViewChange (msg : DoViewChangeMessage n)
  | startView (msg : StartViewMessage)
  | unloggedRequest (req : Request)
  | unloggedReply (reply : String) (clientreqid : Nat)
  deriving DecidableEq

-- The application above a replica (IRAppReplica), with the state its upcalls read
-- and change.
structure AppReplica (σ : Type) where
  execInconsistentUpcall : σ → String → σ
  execConsensusUpcall : σ → String → σ × String
  unloggedUpcall : σ → String → σ × String
  sync : σ → Record → σ
  merge : σ → OrdMap Opid (List RecordEntry) → OrdMap Opid (List RecordEntry) → OrdMap Opid String →
    σ × OrdMap Opid String

structure Env (σ : Type) where
  config : Configuration
  app : AppReplica σ

inductive ReplicaStatus where
  | normal
  | viewChange
  | recovering
  deriving DecidableEq, Repr

-- An IRReplica. View and latest normal view are also written to disk for
-- recovery, which no run here enters. `merges` only records what IrMergeRecords
-- returned, by view; `panicked` marks a process that is gone.
structure Replica (n : Nat) (σ : Type) where
  status : ReplicaStatus
  view : Nat
  latestNormalView : Nat
  record : Record
  doViewChangeQuorum : QuorumSet Nat n (DoViewChangeMessage n)
  app : σ
  merges : List (Nat × Record)
  panicked : Bool

structure Effect (n : Nat) (σ : Type) where
  replica : Replica n σ
  sent : List (Packet n (Message n))

structure Grouped where
  R : Record
  byOpid : OrdMap Opid (List RecordEntry)

def groupEntry (acc : Grouped) (p : Opid × RecordEntry) : Grouped :=
  match p.2.type,p.2.state with
  | .inconsistent,_ => {acc with R := if (acc.R.find p.1).isNone then acc.R.add p.2 else acc.R}
  | .consensus,.finalized =>
    ⟨if (acc.R.find p.1).isNone then acc.R.add p.2 else acc.R,acc.byOpid.erase p.1⟩
  | .consensus,.tentative =>
    if (acc.R.find p.2.opid).isNone then
      {acc with byOpid := acc.byOpid.insert p.2.opid ((acc.byOpid.find p.2.opid).getD [] ++ [p.2])}
    else acc

def groupEntries (records : List Record) : Grouped :=
  records.foldl (fun acc r => r.entries.foldl groupEntry acc) ⟨.empty,.empty⟩

def resultCounts (entries : List RecordEntry) : OrdMap String Nat := .tally (entries.map (fun e => e.result))

-- ceil(0.5 * f) + 1 occurrences, looked for in the order of the results.
def majorityResult (f : Nat) (entries : List RecordEntry) : Option String :=
  ((resultCounts entries).entries.find? (fun c => (f + 1) / 2 + 1 ≤ c.2)).map Prod.fst

structure Split where
  d : OrdMap Opid (List RecordEntry)
  u : OrdMap Opid (List RecordEntry)
  majorityResultsInD : OrdMap Opid String

def splitEntry (f : Nat) (acc : Split) (p : Opid × List RecordEntry) : Split :=
  match majorityResult f p.2 with
  | some result => {acc with d := acc.d.insert p.1 p.2, majorityResultsInD := acc.majorityResultsInD.insert p.1 result}
  | none => {acc with u := acc.u.insert p.1 p.2}

def splitEntries (f : Nat) (byOpid : OrdMap Opid (List RecordEntry)) : Split :=
  byOpid.entries.foldl (splitEntry f) ⟨.empty,.empty,.empty⟩

section
variable (r : Replica n σ) (records : OrdMap (Fin n) (DoViewChangeMessage n))

def maxLatestNormalView : Nat :=
  records.entries.foldl (fun best p => max best p.2.latestNormalView) r.latestNormalView

def latestRecords : List Record :=
  (records.entries.filter (fun p => p.2.latestNormalView = maxLatestNormalView r records)).map
      (fun p => p.2.record.getD .empty) ++
    if r.latestNormalView = maxLatestNormalView r records then [r.record] else []

end

-- Merge results become finalized entries. A result for an opid that was never
-- grouped reads the front of an empty vector: `none`.
def mergedEntries (view : Nat) (byOpid : OrdMap Opid (List RecordEntry)) (results : List (Opid × String)) :
    Option (List RecordEntry) :=
  results.mapM fun p =>
    match (byOpid.find p.1).getD [] with
    | [] => none
    | e :: _ => some ⟨view,p.1,.finalized,e.type,e.request,p.2⟩

section
variable (env : Env σ) (me : Fin env.config.n)

def irMergeRecords (r : Replica env.config.n σ) (records : OrdMap (Fin env.config.n) (DoViewChangeMessage env.config.n)) :
    Option (σ × Record) :=
  let grouped := groupEntries (latestRecords r records)
  let split := splitEntries env.config.f grouped.byOpid
  let synced := env.app.sync r.app grouped.R
  let merged := env.app.merge synced split.d split.u split.majorityResultsInD
  (mergedEntries r.view grouped.byOpid merged.2.entries).map fun entries => (merged.1,entries.foldl Record.add grouped.R)

def Replica.new (app : σ) : Replica env.config.n σ where
  status := .normal
  view := 0
  latestNormalView := 0
  record := .empty
  doViewChangeQuorum := .new env.config.f
  app := app
  merges := []
  panicked := false

def Replica.panic (r : Replica n σ) : Effect n σ := ⟨{r with panicked := true},[]⟩

section
variable (r : Replica env.config.n σ) (remote : Address env.config.n)

def handleProposeInconsistent (req : Request) :
    Effect env.config.n σ :=
  let opid : Opid := ⟨req.clientid,req.clientreqid⟩
  match r.record.find opid with
  | some entry => ⟨r,[⟨.replica me,remote,.replyInconsistent ⟨entry.view,me,opid,entry.state = .finalized⟩⟩]⟩
  | none =>
    ⟨{r with record := r.record.add ⟨r.view,opid,.tentative,.inconsistent,req,""⟩},
      [⟨.replica me,remote,.replyInconsistent ⟨r.view,me,opid,false⟩⟩]⟩

def handleFinalizeInconsistent (opid : Opid) :
    Effect env.config.n σ :=
  match r.record.find opid with
  | none => ⟨r,[]⟩
  | some entry =>
    if entry.state = .tentative then
      ⟨{r with
          record := r.record.setStatus opid .finalized
          app := env.app.execInconsistentUpcall r.app entry.request.op},
        [⟨.replica me,remote,.confirm ⟨r.view,me,opid⟩⟩]⟩
    else ⟨r,[]⟩

def handleProposeConsensus (req : Request) :
    Effect env.config.n σ :=
  let opid : Opid := ⟨req.clientid,req.clientreqid⟩
  match r.record.find opid with
  | some entry => ⟨r,[⟨.replica me,remote,.replyConsensus ⟨entry.view,me,opid,entry.result,entry.state = .finalized⟩⟩]⟩
  | none =>
    let exec := env.app.execConsensusUpcall r.app req.op
    ⟨{r with
        app := exec.1
        record := r.record.add ⟨r.view,opid,.tentative,.consensus,req,exec.2⟩},
      [⟨.replica me,remote,.replyConsensus ⟨r.view,me,opid,exec.2,false⟩⟩]⟩

def handleFinalizeConsensus (opid : Opid) (result : String) :
    Effect env.config.n σ :=
  match r.record.find opid with
  | none => ⟨r,[]⟩
  | some _ =>
    ⟨{r with record := (r.record.setStatus opid .finalized).setResult opid result},
      [⟨.replica me,remote,.confirm ⟨r.view,me,opid⟩⟩]⟩

end

def broadcastDoViewChangeMessages (r : Replica env.config.n σ) : List (Packet env.config.n (Message env.config.n)) :=
  let leader := env.config.getLeaderIndex r.view
  ((List.finRange env.config.n).filter (fun i => i ≠ me ∧ i ≠ leader)).map
      (fun i => ⟨.replica me,.replica i,.doViewChange ⟨me,none,r.view,r.latestNormalView⟩⟩) ++
    if leader = me then []
    else [⟨.replica me,.replica leader,.doViewChange ⟨me,some r.record,r.view,r.latestNormalView⟩⟩]

theorem mem_broadcastDoViewChange {r : Replica env.config.n σ} (mem : p ∈ broadcastDoViewChangeMessages env me r) :
    (∃ i, i ≠ me ∧ i ≠ env.config.getLeaderIndex r.view ∧
      p = ⟨.replica me,.replica i,.doViewChange ⟨me,none,r.view,r.latestNormalView⟩⟩) ∨
    (env.config.getLeaderIndex r.view ≠ me ∧ p = ⟨.replica me,.replica (env.config.getLeaderIndex r.view),
      .doViewChange ⟨me,some r.record,r.view,r.latestNormalView⟩⟩) := by
  rcases List.mem_append.mp mem with bare | full
  · obtain ⟨i,kept,rfl⟩ := List.mem_map.mp bare
    obtain ⟨other,follower⟩ : i ≠ me ∧ i ≠ env.config.getLeaderIndex r.view := by simpa using kept
    exact .inl ⟨i,other,follower,rfl⟩
  · split at full
    · cases full
    · rename_i other; exact .inr ⟨other,List.mem_singleton.mp full⟩

section
variable (r : Replica env.config.n σ)

def beginViewChange (view : Nat) : Effect env.config.n σ :=
  let r := {r with
    view := view
    status := if r.status = .normal then .viewChange else r.status}
  ⟨r,broadcastDoViewChangeMessages env me r⟩

def collectDoViewChange (msg : DoViewChangeMessage env.config.n) : Effect env.config.n σ :=
  if me ≠ env.config.getLeaderIndex r.view then ⟨r,[]⟩
  else
    let added := r.doViewChangeQuorum.addAndCheckForQuorum msg.newView msg.replicaIdx msg
    let r := {r with doViewChangeQuorum := added.1}
    match added.2 with
    | none => ⟨r,[]⟩
    | some quorum =>
      match irMergeRecords env r quorum with
      | none => r.panic
      | some (app,record) =>
        ⟨{r with
            record := record
            app := app
            status := .normal
            view := msg.newView
            latestNormalView := msg.newView
            merges := r.merges ++ [(msg.newView,record)]},
          sendMessageToAll (.replica me) (.startView ⟨record,msg.newView⟩)⟩

def handleDoViewChange (msg : DoViewChangeMessage env.config.n) : Effect env.config.n σ :=
  if msg.newView < r.view then ⟨r,[]⟩
  else if msg.newView = r.view then
    if r.status = .normal then ⟨r,[]⟩ else collectDoViewChange env me r msg
  else
    let begun := beginViewChange env me r msg.newView
    let rest := collectDoViewChange env me begun.replica msg
    ⟨rest.replica,begun.sent ++ rest.sent⟩

def handleStartView (msg : StartViewMessage) : Effect env.config.n σ :=
  if msg.newView < r.view then ⟨r,[]⟩
  else if msg.newView = r.view ∧ r.status = .normal then ⟨r,[]⟩
  else
    ⟨{r with
        record := msg.record
        app := env.app.sync r.app msg.record
        status := .normal
        view := msg.newView
        latestNormalView := msg.newView},[]⟩

def handleUnlogged (remote : Address env.config.n) (req : Request) : Effect env.config.n σ :=
  let res := env.app.unloggedUpcall r.app req.op
  ⟨{r with app := res.1},[⟨.replica me,remote,.unloggedReply res.2 req.clientreqid⟩]⟩

def handleViewChangeTimeout : Effect env.config.n σ := beginViewChange env me r (r.view + 1)

def receiveMessage (remote : Address env.config.n) : Message env.config.n → Effect env.config.n σ
  | .proposeInconsistent req => handleProposeInconsistent env me r remote req
  | .finalizeInconsistent opid => handleFinalizeInconsistent env me r remote opid
  | .proposeConsensus req => handleProposeConsensus env me r remote req
  | .finalizeConsensus opid result => handleFinalizeConsensus env me r remote opid result
  | .doViewChange msg => handleDoViewChange env me r msg
  | .startView msg => handleStartView env r msg
  | .unloggedRequest req => handleUnlogged env me r remote req
  | .replyInconsistent _ => r.panic
  | .replyConsensus _ => r.panic
  | .confirm _ => r.panic
  | .unloggedReply _ _ => r.panic

end

end
end DbExp.Tapir.Ir
