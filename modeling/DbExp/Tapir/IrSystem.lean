import DbExp.Foundation.Machine
import DbExp.Tapir.IrClient

namespace DbExp.Tapir.Ir
open Function

section
variable (env : Env σ)

-- `network` holds every packet ever sent and delivery does not remove it: any
-- packet may be delivered late, twice, out of order, or never.
structure System where
  replicas : Fin env.config.n → Replica env.config.n σ
  clients : Nat → Client env.config.n
  network : List (Packet env.config.n (Message env.config.n))

inductive Action (n : Nat) where
  | deliver (packet : Packet n (Message n))
  | viewChange (replica : Fin n)
  | invokeInconsistent (clientid : Nat) (request : String)
  | invokeConsensus (clientid : Nat) (request : String) (decide : OrdMap String Nat → String)
  | invokeUnlogged (clientid : Nat) (replicaIdx : Fin n) (request : String)
  | requestTimeout (clientid : Nat) (reqId : Nat)
  | slowPath (clientid : Nat) (reqId : Nat)

namespace System
variable {env}

def initial (app : σ) : System env where
  replicas := fun _ => Replica.new env app
  clients := fun _ => {}
  network := []

section
variable (s : System env)

def perform (i : Fin env.config.n) (e : Effect env.config.n σ) : System env :=
  {s with
    replicas := update s.replicas i e.replica
    network := s.network ++ e.sent}

def clientDoes (id : Nat) (e : ClientEffect env.config.n) : System env :=
  {s with
    clients := update s.clients id e.1
    network := s.network ++ e.2}

@[simp] theorem perform_replicas (i j : Fin env.config.n) (e : Effect env.config.n σ) :
    (s.perform i e).replicas j = if j = i then e.replica else s.replicas j := update_apply ..

@[simp] theorem clientDoes_clients (id other : Nat) (e : ClientEffect env.config.n) :
    (s.clientDoes id e).clients other = if other = id then e.1 else s.clients other := update_apply ..

def clientStep (id : Nat) : Action env.config.n → Option (ClientEffect env.config.n)
  | .deliver p => some ((s.clients id).receiveMessage id p.msg)
  | .invokeInconsistent _ request => some ((s.clients id).invokeInconsistent env.config id request)
  | .invokeConsensus _ request decide => some ((s.clients id).invokeConsensus env.config id request decide)
  | .invokeUnlogged _ idx request => some ((s.clients id).invokeUnlogged env.config id idx request)
  | .requestTimeout _ reqId => ((s.clients id).pendingReqs reqId).map ((s.clients id).requestTimeout id)
  | .slowPath _ reqId =>
    match (s.clients id).pendingReqs reqId with
    | none => none
    | some req =>
      match req.kind with
      | .consensus part =>
        if part.transitionToSlowPathTimer then some ((s.clients id).transitionToConsensusSlowPath id req part) else none
      | _ => none
  | .viewChange _ => none

def replicaStep (i : Fin env.config.n) : Action env.config.n → Option (Effect env.config.n σ)
  | .deliver p => some (receiveMessage env i (s.replicas i) p.src p.msg)
  | .viewChange _ => some (handleViewChangeTimeout env i (s.replicas i))
  | _ => none

def actor : Action env.config.n → Option (Address env.config.n)
  | .deliver p => if p ∈ s.network then some p.dst else none
  | .viewChange i => some (.replica i)
  | .invokeInconsistent id _ => some (.client id)
  | .invokeConsensus id _ _ => some (.client id)
  | .invokeUnlogged id _ _ => some (.client id)
  | .requestTimeout id _ => some (.client id)
  | .slowPath id _ => some (.client id)

def step (a : Action env.config.n) : Option (System env) :=
  match s.actor a with
  | none => none
  | some (.replica i) => if (s.replicas i).panicked then none else (s.replicaStep i a).map (s.perform i)
  | some (.client id) => if (s.clients id).panicked then none else (s.clientStep id a).map (s.clientDoes id)

end

end System

def machine (app : σ) : Machine (System env) (Action env.config.n) := ⟨.initial app,System.step⟩

abbrev Reached (app : σ) (allow : System env → Action env.config.n → Prop) : System env → Prop := (machine env app).Reached allow

end

variable {env : Env σ}

inductive Stepped (s : System env) : Action env.config.n → System env → Prop where
  | replicaReceives (sent : p ∈ s.network) (target : p.dst = .replica i) (running : (s.replicas i).panicked = false) :
      Stepped s (.deliver p) (s.perform i (receiveMessage env i (s.replicas i) p.src p.msg))
  | viewChange (running : (s.replicas i).panicked = false) :
      Stepped s (.viewChange i) (s.perform i (handleViewChangeTimeout env i (s.replicas i)))
  | clientReceives {id : Nat} (sent : p ∈ s.network) (target : p.dst = .client id) :
      Stepped s (.deliver p) (s.clientDoes id ((s.clients id).receiveMessage id p.msg))
  | invokeInconsistent (id : Nat) (request : String) :
      Stepped s (.invokeInconsistent id request) (s.clientDoes id ((s.clients id).invokeInconsistent env.config id request))
  | invokeConsensus (id : Nat) (request : String) (decide : OrdMap String Nat → String) :
      Stepped s (.invokeConsensus id request decide)
        (s.clientDoes id ((s.clients id).invokeConsensus env.config id request decide))
  | invokeUnlogged (id : Nat) (idx : Fin env.config.n) (request : String) :
      Stepped s (.invokeUnlogged id idx request) (s.clientDoes id ((s.clients id).invokeUnlogged env.config id idx request))
  | requestTimeout {id : Nat} (found : (s.clients id).pendingReqs k = some req) :
      Stepped s (.requestTimeout id k) (s.clientDoes id ((s.clients id).requestTimeout id req))
  | slowPath {id : Nat} (found : (s.clients id).pendingReqs k = some req) (kind : req.kind = .consensus part)
      (armed : part.transitionToSlowPathTimer) :
      Stepped s (.slowPath id k) (s.clientDoes id ((s.clients id).transitionToConsensusSlowPath id req part))

theorem step_stepped {s t : System env} (taken : s.step a = some t) : Stepped s a t := by
  have delivered {p : Packet env.config.n (Message env.config.n)} {x : Address env.config.n}
      (acts : s.actor (.deliver p) = some x) : p ∈ s.network ∧ p.dst = x := by
    dsimp only [System.actor] at acts
    split at acts
    · rename_i sent; cases acts; exact ⟨sent,rfl⟩
    · cases acts
  unfold System.step at taken
  split at taken
  · cases taken
  next i acts =>
    split at taken
    · cases taken
    rename_i running
    obtain ⟨e,moved,rfl⟩ := Option.map_eq_some_iff.mp taken
    cases a with
    | deliver p => cases moved; exact .replicaReceives (delivered acts).1 (delivered acts).2 (by simpa using running)
    | viewChange j => cases moved; cases acts; exact .viewChange (by simpa using running)
    | _ => cases moved
  next id acts =>
    split at taken
    · cases taken
    obtain ⟨e,moved,rfl⟩ := Option.map_eq_some_iff.mp taken
    cases a with
    | deliver p => cases moved; exact .clientReceives (delivered acts).1 (delivered acts).2
    | viewChange j => cases moved
    | invokeInconsistent other request => cases acts; cases moved; exact .invokeInconsistent ..
    | invokeConsensus other request decide => cases acts; cases moved; exact .invokeConsensus ..
    | invokeUnlogged other idx request => cases acts; cases moved; exact .invokeUnlogged ..
    | requestTimeout other k =>
      cases acts
      obtain ⟨req,got,rfl⟩ := Option.map_eq_some_iff.mp moved
      exact .requestTimeout got
    | slowPath other k =>
      cases acts
      dsimp only [System.clientStep] at moved
      split at moved
      · cases moved
      rename_i req got
      split at moved
      next part kind =>
        split at moved
        · rename_i armed; cases moved; exact .slowPath got kind armed
        · cases moved
      · cases moved

end DbExp.Tapir.Ir
