import DbExp.Tapir.TapirSerializable

namespace DbExp.Tapir.TapirStore
open Function

-- The replicas of one shard and one transaction that its client prepares in rounds,
-- each with its own timestamp. A replica may miss a round, get it late or twice, and
-- serves the requests of other transactions in between. Rounds and deliveries are
-- listed with the latest first.
structure Replicas (n : Nat) where
  stores : Fin n → Store
  rounds : List Timestamp
  delivered : Fin n → List Timestamp
  votes : List (Fin n × Timestamp × ReplyCode)

inductive ReplicaStep (n : Nat) where
  | round (timestamp : Timestamp)
  | deliver (i : Fin n) (timestamp : Timestamp)
  | consensus (i : Fin n) (request : Request)
  | inconsistent (i : Fin n) (request : Request)
  | load (i : Fin n) (key value : String) (timestamp : Timestamp)

section
variable (n : Nat) (linearizable : Bool) (id : Nat) (txn : Transaction)

namespace Replicas
variable {n}

def setStore (s : Replicas n) (i : Fin n) (store : Store) : Replicas n := {s with stores := update s.stores i store}

def step (s : Replicas n) : ReplicaStep n → Option (Replicas n)
  | .round timestamp => if timestamp ∈ s.rounds then none else some {s with rounds := timestamp :: s.rounds}
  | .deliver i timestamp =>
    if timestamp ∈ s.rounds then
      (execConsensusUpcall (s.stores i) ⟨id,.prepare txn timestamp⟩).map fun (store,reply) =>
        {s.setStore i store with delivered := update s.delivered i (timestamp :: s.delivered i),
                                 votes := (i,timestamp,reply.status) :: s.votes}
    else none
  | .consensus i request =>
    if request.txnid = id then none
    else (execConsensusUpcall (s.stores i) request).map fun (store,_) => s.setStore i store
  | .inconsistent i request =>
    if request.txnid = id then none else (execInconsistentUpcall (s.stores i) request).map fun store => s.setStore i store
  | .load i key value timestamp => some (s.setStore i ((s.stores i).load key value timestamp))

end Replicas

def replicas : Machine (Replicas n) (ReplicaStep n) where
  initial := ⟨fun _ => .new linearizable,[],fun _ => [],[]⟩
  step := Replicas.step id txn

end

namespace Replicas
variable {n : Nat}

-- Every replica that has the transaction prepared puts its writes into its store under
-- the given timestamp when it executes Commit.
def InstallAt (s : Replicas n) (id : Nat) (txn : Transaction) (timestamp : Timestamp) : Prop :=
  ∀ i, ((s.stores i).prepared.find id).isSome = true → (s.stores i).installs id = txn.puts timestamp

def Decided (config : Configuration) (s : Replicas config.n) (timestamp : Timestamp) : Prop :=
  s.rounds.head? = some timestamp ∧
  config.quorumSize ≤ ((List.finRange config.n).filter fun i => (i,timestamp,ReplyCode.ok) ∈ s.votes).length

def GotLast (s : Replicas n) (id : Nat) (timestamp : Timestamp) : Prop :=
  ∀ i, ((s.stores i).prepared.find id).isSome = true → (s.delivered i).head? = some timestamp

def Follows (s : Replicas n) (id : Nat) (txn : Transaction) : Prop :=
  ∀ i p, (s.stores i).prepared.find id = some p → p.2 = txn ∧ (s.delivered i).head? = some p.1

end Replicas

section
variable {n id : Nat} {txn : Transaction} {s t : Replicas n}

theorem prepare_keeps {store : Store} (apart : other ≠ id) :
    ((store.prepare other x timestamp).1.prepared.find id) = store.prepared.find id := by
  have result := prepare_prepares store other x timestamp
  generalize store.prepare other x timestamp = out at result
  cases result with
  | again old got => rfl
  | refused code proposed refuses => simp [Store.forget,apart]
  | accepted reads writes => simp [apart]

theorem consensus_keeps (apart : request.txnid ≠ id) (ran : execConsensusUpcall store request = some (after,reply)) :
    after.prepared.find id = store.prepared.find id := by
  unfold execConsensusUpcall at ran
  split at ran
  · cases Option.some.inj ran
    exact prepare_keeps apart
  · cases ran

theorem inconsistent_keeps (apart : request.txnid ≠ id) (ran : execInconsistentUpcall store request = some after) :
    after.prepared.find id = store.prepared.find id := by
  unfold execInconsistentUpcall at ran
  split at ran
  · cases Option.some.inj ran
    simp [Store.commit,apart]
  · cases Option.some.inj ran
    simp [Store.abort,Store.forget,apart]
  · cases ran

theorem setStore_follows (follows : s.Follows id txn) (same : store.prepared.find id = (s.stores i).prepared.find id) :
    (s.setStore i store).Follows id txn := by
  intro j p got
  change (update s.stores i store j).prepared.find id = some p at got
  by_cases here : j = i
  · subst here
    rw [update_self,same] at got
    exact follows j p got
  · rw [update_of_ne here] at got
    exact follows j p got

theorem deliver_follows (follows : s.Follows id txn) (ran : execConsensusUpcall (s.stores i) ⟨id,.prepare txn timestamp⟩ = some (store,reply)) :
    ({s.setStore i store with delivered := update s.delivered i (timestamp :: s.delivered i),
                              votes := (i,timestamp,reply.status) :: s.votes} : Replicas n).Follows id txn := by
  intro j p got
  change (update s.stores i store j).prepared.find id = some p at got
  change p.2 = txn ∧ (update s.delivered i (timestamp :: s.delivered i) j).head? = some p.1
  by_cases here : j = i
  · subst here
    rw [update_self] at got
    rw [update_self]
    have ended : ((s.stores j).prepare id txn timestamp).1 = store := congrArg Prod.fst (Option.some.inj ran)
    rw [← ended] at got
    have result := prepare_prepares (s.stores j) id txn timestamp
    generalize (s.stores j).prepare id txn timestamp = out at result got ended
    cases result with
    | again old there =>
      rw [there] at got
      cases got
      exact ⟨(follows j _ there).1,rfl⟩
    | refused code proposed refuses => simp [Store.forget] at got
    | accepted reads writes =>
      simp only [OrdMap.find_insert,if_true,Option.some.injEq] at got
      cases got
      exact ⟨rfl,rfl⟩
  · rw [update_of_ne here] at got
    rw [update_of_ne here]
    exact follows j p got

theorem step_follows (follows : s.Follows id txn) (taken : s.step id txn act = some t) : t.Follows id txn := by
  unfold Replicas.step at taken
  split at taken
  · split at taken
    · cases taken
    · cases Option.some.inj taken
      exact follows
  · split at taken
    · obtain ⟨⟨store,reply⟩,ran,rfl⟩ := Option.map_eq_some_iff.mp taken
      exact deliver_follows follows ran
    · cases taken
  · split at taken
    · cases taken
    next apart =>
      obtain ⟨⟨store,reply⟩,ran,rfl⟩ := Option.map_eq_some_iff.mp taken
      exact setStore_follows follows (consensus_keeps apart ran)
  · split at taken
    · cases taken
    next apart =>
      obtain ⟨store,ran,rfl⟩ := Option.map_eq_some_iff.mp taken
      exact setStore_follows follows (inconsistent_keeps apart ran)
  · cases Option.some.inj taken
    exact setStore_follows follows rfl

theorem reached_follows (reached : (replicas n linearizable id txn).Reached Machine.anyStep s) : s.Follows id txn := by
  refine Machine.Reached.invariant (fun s => s.Follows id txn) ?_ ?_ reached
  · intro i p got
    cases got
  · intro s act t _ follows _ taken
    exact step_follows follows taken

theorem puts_inj (same : txn.puts a = txn.puts b) : txn.writeSet.entries = [] ∨ a = b := by
  unfold Transaction.puts at same
  cases list : txn.writeSet.entries with
  | nil => exact .inl rfl
  | cons head rest =>
    rw [list,List.map_cons,List.map_cons] at same
    simp only [List.cons.injEq,Prod.mk.injEq,true_and] at same
    exact .inr same.1

end

theorem installs_at_iff_got_last (n : Nat) (linearizable : Bool) (id : Nat) (txn : Transaction) (s : Replicas n) (timestamp : Timestamp)
    (reached : (replicas n linearizable id txn).Reached Machine.anyStep s) :
    s.InstallAt id txn timestamp ↔ txn.writeSet.entries = [] ∨ s.GotLast id timestamp := by
  have follows := reached_follows reached
  have installed (i : Fin n) (p : Timestamp × Transaction) (found : (s.stores i).prepared.find id = some p) :
      (s.stores i).installs id = txn.puts p.1 := by
    unfold Store.installs Store.preparedAs
    rw [found,Option.getD_some,(follows i p found).1]
  constructor
  · intro installs
    by_cases empty : txn.writeSet.entries = []
    · exact .inl empty
    refine .inr fun i present => ?_
    obtain ⟨p,found⟩ := Option.isSome_iff_exists.mp present
    have same := (installed i p found).symm.trans (installs i present)
    rw [(follows i p found).2,(puts_inj same).resolve_left empty]
  intro either i present
  obtain ⟨p,found⟩ := Option.isSome_iff_exists.mp present
  rw [installed i p found]
  rcases either with empty | got
  · unfold Transaction.puts
    rw [empty]
    rfl
  · have last := (follows i p found).2.symm.trans (got i present)
    rw [Option.some.inj last]

-- Three replicas. Transaction 9 has written the key at replicas 1 and 2, so that the
-- first round of transaction 7 is accepted at replica 0 only and a later one follows.
def threeReplicas : Configuration := ⟨3,1,three_replicas⟩

def blindWrite : Transaction := Transaction.empty.addWriteSet "k" "b"

def firstRound : List (ReplicaStep 3) :=
  [.load 0 "k" "a" .zero,.load 1 "k" "a" .zero,.load 2 "k" "a" .zero,
   .consensus 1 ⟨9,.prepare blindWrite ⟨5,9⟩⟩,.inconsistent 1 ⟨9,.commit 0⟩,
   .consensus 2 ⟨9,.prepare blindWrite ⟨5,9⟩⟩,.inconsistent 2 ⟨9,.commit 0⟩,
   .round ⟨3,7⟩,.deliver 0 ⟨3,7⟩,.deliver 1 ⟨3,7⟩,.deliver 2 ⟨3,7⟩]

theorem same_timestamp_when_all_got_last : ∃ s : Replicas 3, s.Decided threeReplicas ⟨6,7⟩ ∧ s.InstallAt 7 blindWrite ⟨6,7⟩ ∧
    ∀ i, ((s.stores i).prepared.find 7).isSome = true := by
  obtain ⟨s,reached,decided,last,present⟩ := Machine.reached_of_run (replicas 3 true 7 blindWrite) Machine.anyStep
    (fun s => (s.rounds.head? = some ⟨6,7⟩ ∧
        2 ≤ ((List.finRange 3).filter fun i => (i,(⟨6,7⟩ : Timestamp),ReplyCode.ok) ∈ s.votes).length) ∧
      (∀ i, (s.delivered i).head? = some ⟨6,7⟩) ∧ ∀ i, ((s.stores i).prepared.find 7).isSome = true)
    (firstRound ++ [.round ⟨6,7⟩,.deliver 0 ⟨6,7⟩,.deliver 1 ⟨6,7⟩,.deliver 2 ⟨6,7⟩]) (by decide +kernel)
  exact ⟨s,decided,(installs_at_iff_got_last 3 true 7 blindWrite s ⟨6,7⟩ reached).mpr (.inr fun i _ => last i),present⟩

-- The second round does not get to replica 0, which commits at the timestamp of the
-- first one.
theorem stale_round_installed : ¬ ∀ (s : Replicas 3) (timestamp : Timestamp),
    (replicas 3 true 7 blindWrite).Reached Machine.anyStep s → s.Decided threeReplicas timestamp → s.InstallAt 7 blindWrite timestamp := by
  intro claimed
  obtain ⟨s,reached,decided,present,installed⟩ := Machine.reached_of_run (replicas 3 true 7 blindWrite) Machine.anyStep
    (fun s => (s.rounds.head? = some ⟨6,7⟩ ∧
        2 ≤ ((List.finRange 3).filter fun i => (i,(⟨6,7⟩ : Timestamp),ReplyCode.ok) ∈ s.votes).length) ∧
      ((s.stores 0).prepared.find 7).isSome = true ∧ (s.stores 0).installs 7 = blindWrite.puts ⟨3,7⟩)
    (firstRound ++ [.round ⟨6,7⟩,.deliver 1 ⟨6,7⟩,.deliver 2 ⟨6,7⟩]) (by decide +kernel)
  have claim := claimed s ⟨6,7⟩ reached decided 0 present
  rw [installed] at claim
  exact absurd claim (by decide +kernel)

end DbExp.Tapir.TapirStore
