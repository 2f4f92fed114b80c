import DbExp.Tapir.IrClient
import DbExp.Tapir.TapirClient
import DbExp.Tapir.TapirSerializable

namespace DbExp.Tapir.TapirStore

open Ir

def unanimous (format : ReplyFormat) (reply : Reply) (count : Nat) : OrdMap String Nat :=
  OrdMap.empty.insert (format.serializeToString reply) count

theorem tally_replicate [LinearOrder κ] (k : κ) (count : Nat) :
    OrdMap.tally (List.replicate (count + 1) k) = OrdMap.empty.insert k (count + 1) := by
  induction count with
  | zero => rfl
  | succ count ih =>
    have step : OrdMap.tally (List.replicate (count + 1) k ++ [k]) =
        (OrdMap.tally (List.replicate (count + 1) k)).insert k (((OrdMap.tally (List.replicate (count + 1) k)).find k).getD 0 + 1) := by
      simp [OrdMap.tally,List.foldl_append]
    rw [List.replicate_succ',step,ih]
    simp [OrdMap.insert,OrdMap.find,OrdMap.empty,OrdMap.put,OrdMap.lookup]

section
variable {msgs : OrdMap (Fin n) (ReplyConsensusMessage n)} {format : ReplyFormat} {reply : Reply}

theorem replyCounts_unanimous (alike : ∀ p ∈ msgs.entries, p.2.result = format.serializeToString reply) (filled : 0 < msgs.size) :
    Client.replyCounts msgs = unanimous format reply msgs.size := by
  have same : msgs.entries.map (fun p => p.2.result) = List.replicate msgs.size (format.serializeToString reply) := by
    refine List.eq_replicate_iff.mpr ⟨List.length_map ..,?_⟩
    intro result mem
    obtain ⟨p,listed,rfl⟩ := List.mem_map.mp mem
    exact alike p listed
  obtain ⟨_,size⟩ := Nat.exists_eq_succ_of_ne_zero filled.ne'
  unfold Client.replyCounts unanimous
  rw [same,size]
  exact tally_replicate _ _

theorem fastPath_delivers (clientid view : Nat) (c : Client n) (req : PendingRequest n) (part : ConsensusPart n)
    (fresh : req.continuationInvoked = false) (alike : ∀ p ∈ msgs.entries, p.2.result = format.serializeToString reply)
    (filled : 0 < msgs.size) (enough : part.superQuorumSize ≤ msgs.size) :
    (c.handleFastPathConsensus clientid req part view msgs).1.completed =
      c.completed ++ [⟨req.clientReqId,view,.ok (format.serializeToString reply)⟩] := by
  have got : (Client.replyCounts msgs).entries.find? (fun result => part.superQuorumSize ≤ result.2) =
      some (format.serializeToString reply,msgs.size) := by
    rw [replyCounts_unanimous alike filled]
    simp [unanimous,OrdMap.insert,OrdMap.empty,OrdMap.put,enough]
  unfold Client.handleFastPathConsensus
  rw [got]
  rw [fresh]
  rfl

end

-- The replies to PREPARE: only a vote for the transaction is known to carry no time.
inductive PrepareReply : Reply → Prop where
  | ok : PrepareReply {status := .ok}
  | fail (timestamp : Option Timestamp) : PrepareReply {status := .fail, timestamp}
  | retry (timestamp : Option Timestamp) : PrepareReply {status := .retry, timestamp}
  | abstain (timestamp : Option Timestamp) : PrepareReply {status := .abstain, timestamp}

theorem checkAndPrepare_reply (s : Store) (id : Nat) (txn : Transaction) (t : Timestamp) :
    PrepareReply {status := (s.checkAndPrepare id txn t).2.1, timestamp :=
      if (s.checkAndPrepare id txn t).2.2.isValid then some (s.checkAndPrepare id txn t).2.2 else none} := by
  unfold Store.checkAndPrepare
  split
  next code stopped =>
    obtain ⟨_,_,here⟩ := List.exists_of_findSome?_eq_some stopped
    rcases readCheck_code here with rfl | rfl
    · exact .fail _
    · exact .abstain _
  · split
    next code proposed stopped =>
      obtain ⟨_,_,here⟩ := List.exists_of_findSome?_eq_some stopped
      rcases writeCheck_code here with rfl | rfl
      · exact .retry _
      · exact .abstain _
    · exact .ok

theorem prepare_reply (s : Store) (id : Nat) (txn : Transaction) (t : Timestamp) :
    PrepareReply {status := (s.prepare id txn t).2.1, timestamp :=
      if (s.prepare id txn t).2.2.isValid then some (s.prepare id txn t).2.2 else none} := by
  unfold Store.prepare
  split
  · exact checkAndPrepare_reply ..
  · split
    · exact .ok
    · exact checkAndPrepare_reply ..

theorem execConsensusUpcall_reply (executed : execConsensusUpcall s request = some (t,reply)) : PrepareReply reply := by
  unfold execConsensusUpcall at executed
  split at executed
  next txn timestamp _ =>
    cases executed
    exact prepare_reply ..
  · cases executed

theorem quorumSize_le_fastQuorumSize (config : Configuration) : config.quorumSize ≤ config.fastQuorumSize := by
  unfold Configuration.quorumSize Configuration.fastQuorumSize
  omega

theorem max_ofTime_zero (ts : Timestamp) : max (.ofTime 0) ts = ts := by
  refine max_eq_right (not_lt.mp fun less => ?_)
  rw [Timestamp.lt_iff] at less
  simp [Timestamp.ofTime] at less

theorem answer_slow_unanimous (config : Configuration) (format : ReplyFormat) (enough : config.quorumSize ≤ count)
    (shape : PrepareReply reply) : answer config format (.slow (unanimous format reply count)) =
      if reply.status = .abstain then (.retry,.zero) else answer config format (.fast reply) := by
  have one : (unanimous format reply count).entries = [(format.serializeToString reply,count)] := rfl
  unfold answer prepareCallback delivered tapirDecide
  dsimp only
  rw [one]
  unfold decideLoop
  rw [format.parse_serialize]
  cases shape with
  | ok => simp [decideLoop,enough,format.parse_serialize]
  | fail timestamp => simp [format.parse_serialize]
  | retry timestamp =>
    have filled : ¬ config.quorumSize ≤ 0 := by unfold Configuration.quorumSize; omega
    simp [decideLoop,filled,format.parse_serialize,max_ofTime_zero]
  | abstain timestamp =>
    have filled : ¬ config.quorumSize ≤ 0 := by unfold Configuration.quorumSize; omega
    simp [decideLoop,filled,format.parse_serialize]
    rfl

-- Both paths of a PREPARE on replies that are all alike: the fast path hands the reply
-- out, and the decision over the same replies reads the same unless it is abstention.
theorem paths_agree_iff_not_abstain (config : Configuration) (format : ReplyFormat) (s t : Store) (request : Request) (reply : Reply)
    (count : Nat) (executed : execConsensusUpcall s request = some (t,reply)) (enough : config.fastQuorumSize ≤ count) :
    (∀ (clientid view : Nat) (c : Client config.n) (req : PendingRequest config.n) (part : ConsensusPart config.n)
      (msgs : OrdMap (Fin config.n) (ReplyConsensusMessage config.n)), req.continuationInvoked = false → msgs.size = count →
      part.superQuorumSize = config.fastQuorumSize → (∀ p ∈ msgs.entries, p.2.result = format.serializeToString reply) →
      Client.replyCounts msgs = unanimous format reply count ∧
      (c.handleFastPathConsensus clientid req part view msgs).1.completed =
        c.completed ++ [⟨req.clientReqId,view,.ok (delivered config format (.fast reply))⟩]) ∧
    (answer config format (.slow (unanimous format reply count)) = answer config format (.fast reply) ↔ reply.status ≠ .abstain) := by
  have filled : 0 < count := by
    unfold Configuration.fastQuorumSize at enough
    omega
  refine ⟨?_,?_⟩
  · intro clientid view c req part msgs fresh size quorum alike
    subst size
    exact ⟨replyCounts_unanimous alike filled,fastPath_delivers clientid view c req part fresh alike filled (quorum ▸ enough)⟩
  rw [answer_slow_unanimous config format ((quorumSize_le_fastQuorumSize config).trans enough) (execConsensusUpcall_reply executed)]
  by_cases silent : reply.status = .abstain
  · rw [if_pos silent]
    have apart : answer config format (.fast reply) = (.abstain,reply.timestamp.getD .zero) := by
      simp [answer,prepareCallback,delivered,format.parse_serialize,silent]
    rw [apart]
    simp [silent]
  · rw [if_neg silent]
    simp [silent]

def trio : Configuration := ⟨3,1,three_replicas⟩

def writesK : Request := ⟨2,.prepare {readSet := .empty, writeSet := OrdMap.empty.insert "k" "v"} ⟨5,1⟩⟩

def laterReader : Store :=
  {Store.new true with prepared := OrdMap.empty.insert 1 (⟨9,1⟩,{readSet := OrdMap.empty.insert "k" .zero, writeSet := .empty})}

theorem paths_agree_on_votes : ∃ t, execConsensusUpcall (.new true) writesK = some (t,{status := .ok}) ∧
    answer trio plainText (.slow (unanimous plainText {status := .ok} 3)) = answer trio plainText (.fast {status := .ok}) := by
  have executed : execConsensusUpcall (.new true) writesK =
      some ({Store.new true with prepared := OrdMap.empty.insert 2 (⟨5,1⟩,{readSet := .empty, writeSet := OrdMap.empty.insert "k" "v"})},
        {status := .ok}) := by
    decide +kernel
  refine ⟨_,executed,?_⟩
  exact (paths_agree_iff_not_abstain trio plainText (.new true) _ writesK {status := .ok} 3 executed (by decide)).2.mpr (by decide)

-- Three abstentions: the fast path hands them out, the slow path asks for a retry.
theorem abstentions_decided_retry : ¬ ∀ (config : Configuration) (format : ReplyFormat) (s t : Store) (request : Request) (reply : Reply)
    (count : Nat), execConsensusUpcall s request = some (t,reply) → config.fastQuorumSize ≤ count →
    answer config format (.slow (unanimous format reply count)) = answer config format (.fast reply) := by
  intro claimed
  have executed : execConsensusUpcall laterReader writesK = some (laterReader,{status := .abstain}) := by decide +kernel
  have same := claimed trio plainText laterReader laterReader writesK {status := .abstain} 3 executed (by decide)
  exact absurd same (by decide +kernel)

end DbExp.Tapir.TapirStore
