import DbExp.Tapir.LockClient
import DbExp.Tapir.IrVotes

namespace DbExp.Tapir.Lock
open Function List
open Ir (Opid Client PendingRequest ConsensusPart Completion ClientEffect ReplyConsensusMessage Network Voted Finalized Ended About Ledger)
open OrdMap (weight mem_entries card_keys size)

section
variable (wire : Wire)

def Granted (result : String) : Prop := (wire.reply.parseFromString result).status = 0

instance (result : String) : Decidable (Granted wire result) := inferInstanceAs (Decidable (_ = _))

theorem decide_counts (entries : List (String × Nat)) (acc : Nat × String) :
    (entries.foldl (decideStep wire) acc).1 = acc.1 + weight (fun result => Granted wire result) entries := by
  induction entries generalizing acc with
  | nil => simp [weight]
  | cons head rest ih =>
    rw [foldl_cons,ih]
    by_cases grants : (wire.reply.parseFromString head.1).status = 0
    · simp [weight,decideStep,Granted,grants]; omega
    · simp [weight,decideStep,Granted,grants]

theorem granted_decide (results : List String) :
    Granted wire (decide wire (.tally results)) ↔ 2 ≤ results.countP (fun result => Granted wire result) := by
  change (wire.reply.parseFromString (decide wire (.tally results))).status = 0 ↔ _
  rw [decide,wire.reply.parse_serialize,decide_counts,OrdMap.weight_tally]
  simp
  exact Iff.rfl

def TwoVotes (net : Network n) (op : Opid) : Prop :=
  ∃ i j, i ≠ j ∧ (∃ result, Voted net i op result ∧ Granted wire result) ∧ ∃ result, Voted net j op result ∧ Granted wire result

theorem twoVotes_of_counts {net : Network n} {msgs : OrdMap (Fin n) (ReplyConsensusMessage n)}
    (votes : ∀ j m, msgs.find j = some m → Voted net j op m.result)
    (enough : 2 ≤ (msgs.entries.map (fun p => p.2.result)).countP (fun result => Granted wire result)) : TwoVotes wire net op := by
  rw [countP_map,countP_eq_length_filter] at enough
  have sorted := msgs.sorted.filter ((fun result => Granted wire result) ∘ fun p : Fin n × ReplyConsensusMessage n => p.2.result)
  have granted (p : Fin n × ReplyConsensusMessage n)
      (mem : p ∈ msgs.entries.filter ((fun result => Granted wire result) ∘ fun p => p.2.result)) :
      ∃ result, Voted net p.1 op result ∧ Granted wire result := by
    obtain ⟨listed,grants⟩ := mem_filter.mp mem
    exact ⟨p.2.result,votes p.1 p.2 (mem_entries.mp listed),by simpa using grants⟩
  match shape : msgs.entries.filter ((fun result => Granted wire result) ∘ fun p => p.2.result) with
  | [] => rw [shape] at enough; simp at enough
  | [_] => rw [shape] at enough; simp at enough
  | first :: second :: rest =>
    rw [shape] at sorted granted
    have apart : first.1 < second.1 := (pairwise_cons.mp sorted).1 second mem_cons_self
    exact ⟨first.1,second.1,apart.ne,granted first mem_cons_self,granted second (.tail _ mem_cons_self)⟩

def Returned (net : Network n) (op : Opid) (result : String) : Prop :=
  (∀ other, Finalized net op other → (Granted wire other ↔ Granted wire result)) ∧ (Granted wire result → TwoVotes wire net op)

structure PartStands (net : Network n) (op : Opid) (part : ConsensusPart n) : Prop where
  quorumSize : part.quorumSize = 2
  required : part.consensusReplyQuorum.numRequired = 2
  superQuorumSize : part.superQuorumSize = n
  decides : part.decide = decide wire
  stored : ∀ view j m, part.consensusReplyQuorum.Stored view j m → Voted net j op m.result

-- A pending lock request. Its outcome is decided once, except that the timer that
-- a fast decision leaves running decides again, over replies that all agree.
structure ConsensusStands (net : Network n) (op : Opid) (req : PendingRequest n) (part : ConsensusPart n) : Prop
    extends PartStands wire net op part where
  slow : part.onSlowPath → part.transitionToSlowPathTimer = false
  confirming : req.confirming → part.sentConfirms
  undecided : part.sentConfirms = false → req.continuationInvoked = false ∧ ∀ result, ¬ Finalized net op result
  decided : part.sentConfirms → Returned wire net op part.decideResult
  fast : part.sentConfirms → part.transitionToSlowPathTimer →
    ∀ j, ∃ result, Voted net j op result ∧ (Granted wire result ↔ Granted wire part.decideResult)

def Completed (c : Client n) (k : Nat) : Prop := ∃ done ∈ c.completed, done.reqId = k

def Outcomes (c : Client n) (k : Nat) (right : String → Prop) : Prop :=
  ∀ done ∈ c.completed, done.reqId = k → ∀ result, done.result = .ok result → right result

structure RequestStands (net : Network n) (id k : Nat) (c : Client n) : Prop where
  consensus : ∀ req part, c.pendingReqs k = some req → req.kind = .consensus part → ConsensusStands wire net ⟨id,k⟩ req part ∧
    Outcomes c k fun result => part.sentConfirms ∧ (Granted wire result ↔ Granted wire part.decideResult)
  inconsistent : ∀ req quorum, c.pendingReqs k = some req → req.kind = .inconsistent quorum → req.confirming → Completed c k
  ended : Ended net ⟨id,k⟩ → Completed c k
  returned : Outcomes c k fun result => ∀ text, c.issued k = some (.logged .consensus,text) → Returned wire net ⟨id,k⟩ result

def ClientStands (net : Network n) (id : Nat) (c : Client n) : Prop := ∀ k, RequestStands wire net id k c

end

section
variable {wire : Wire} {net later : Network n} {op : Opid}

theorem TwoVotes.grows (votes : TwoVotes wire net op) (grow : ∀ i result, Voted net i op result → Voted later i op result) :
    TwoVotes wire later op := by
  obtain ⟨i,j,apart,⟨a,first,grantsA⟩,⟨b,second,grantsB⟩⟩ := votes
  exact ⟨i,j,apart,⟨a,grow i a first,grantsA⟩,⟨b,grow j b second,grantsB⟩⟩

theorem Returned.grows (holds : Returned wire net op result) (grow : ∀ i result, Voted net i op result → Voted later i op result)
    (same : ∀ other, Finalized later op other → (Granted wire other ↔ Granted wire result) ∨ Finalized net op other) :
    Returned wire later op result :=
  ⟨fun other sent => (same other sent).elim (fun agrees => agrees) (holds.1 other),fun grants => (holds.2 grants).grows grow⟩

theorem PartStands.grows (holds : PartStands wire net op part) (grow : ∀ i result, Voted net i op result → Voted later i op result) :
    PartStands wire later op part :=
  {holds with stored := fun view j m there => grow j _ (holds.stored view j m there)}

theorem ConsensusStands.grows (holds : ConsensusStands wire net op req part)
    (grow : ∀ i result, Voted net i op result → Voted later i op result)
    (same : ∀ result, Finalized later op result → Finalized net op result) : ConsensusStands wire later op req part where
  toPartStands := holds.toPartStands.grows grow
  slow := holds.slow
  confirming := holds.confirming
  undecided := fun ongoing => ⟨(holds.undecided ongoing).1,fun result sent => (holds.undecided ongoing).2 result (same result sent)⟩
  decided := fun sent => (holds.decided sent).grows grow fun other out => .inr (same other out)
  fast := by
    intro sent timer j
    obtain ⟨result,vote,agrees⟩ := holds.fast sent timer j
    exact ⟨result,grow j result vote,agrees⟩

theorem RequestStands.grows {id k : Nat} {c d : Client n} (holds : RequestStands wire net id k c)
    (grow : ∀ i result, Voted net i ⟨id,k⟩ result → Voted later i ⟨id,k⟩ result)
    (same : ∀ result, Finalized later ⟨id,k⟩ result → Finalized net ⟨id,k⟩ result) (ended : Ended later ⟨id,k⟩ → Ended net ⟨id,k⟩)
    (pending : d.pendingReqs k = c.pendingReqs k) (issued : d.issued k = c.issued k)
    (kept : ∀ done ∈ c.completed, done ∈ d.completed) (only : ∀ done ∈ d.completed, done.reqId = k → done ∈ c.completed) :
    RequestStands wire later id k d where
  consensus := by
    intro req part got kind
    obtain ⟨stands,linked⟩ := holds.consensus req part (pending ▸ got) kind
    exact ⟨stands.grows grow same,fun done mem here => linked done (only done mem here) here⟩
  inconsistent := by
    intro req quorum got kind confirming
    obtain ⟨done,mem,here⟩ := holds.inconsistent req quorum (pending ▸ got) kind confirming
    exact ⟨done,kept done mem,here⟩
  ended := by
    intro out
    obtain ⟨done,mem,here⟩ := holds.ended (ended out)
    exact ⟨done,kept done mem,here⟩
  returned := fun done mem here result ok text listed =>
    (holds.returned done (only done mem here) here result ok text (issued ▸ listed)).grows grow fun other out => .inr (same other out)

theorem ClientStands.step {id k : Nat} {c d : Client n} {new : Network n} (holds : ClientStands wire net id c)
    (about : ∀ p ∈ new, About ⟨id,k⟩ p.msg) (apart : ∀ l, l ≠ k → d.pendingReqs l = c.pendingReqs l ∧ d.issued l = c.issued l)
    (kept : ∀ done ∈ c.completed, done ∈ d.completed) (only : ∀ done ∈ d.completed, done.reqId ≠ k → done ∈ c.completed)
    (here : RequestStands wire (net ++ new) id k d) : ClientStands wire (net ++ new) id d := by
  intro l
  by_cases same : l = k
  · subst same; exact here
  · have other : (⟨id,l⟩ : Opid) ≠ ⟨id,k⟩ := fun equal => same (Opid.mk.inj equal).2
    exact (holds l).grows Ir.voted_left (fun result => About.finalized about other)
      (About.ended about other) (apart l same).1 (apart l same).2 kept fun done mem at_l => only done mem (at_l ▸ same)

def Acts (wire : Wire) (net : Network n) (id k : Nat) (e : ClientEffect n) : Prop :=
  ClientStands wire (net ++ e.2) id e.1 ∧ ∀ p ∈ e.2, About ⟨id,k⟩ p.msg

theorem finalized_toAll (sent : Finalized (net ++ sendMessageToAll src (.finalizeConsensus op result)) op other) :
    other = result ∨ Finalized net op other := by
  rcases Ir.sent_append.mp sent with old | ⟨_,mem,same⟩
  · exact .inr old
  · have := (mem_toAll mem).symm.trans same
    cases this
    exact .inl rfl

theorem not_ended_toAll (sent : Ended (net ++ sendMessageToAll src (.finalizeConsensus op result)) o) : Ended net o := by
  rcases Ir.sent_append.mp sent with old | ⟨_,mem,same⟩
  · exact old
  · cases (mem_toAll mem).symm.trans same

section
variable {new : Network n} (about : ∀ op, ∀ p ∈ new, About op p.msg)
include about

-- Packets about every operation are proposals; seen as about another one they end nothing.
theorem unfinalized (result : String) (sent : Finalized (net ++ new) op result) : Finalized net op result :=
  About.finalized (about ⟨op.clientid + 1,0⟩) (by cases op; simp) sent

theorem unended (sent : Ended (net ++ new) op) : Ended net op := About.ended (about ⟨op.clientid + 1,0⟩) (by cases op; simp) sent

end

theorem put_apart {c : Client n} {req : PendingRequest n} (key : req.clientReqId = k) (l : Nat) (other : l ≠ k) :
    (c.put req).pendingReqs l = c.pendingReqs l ∧ (c.put req).issued l = c.issued l :=
  ⟨by rw [Client.put_pendingReqs,if_neg (key ▸ other)],rfl⟩

theorem drop_apart {c : Client n} (l : Nat) (other : l ≠ k) :
    (c.drop k).pendingReqs l = c.pendingReqs l ∧ (c.drop k).issued l = c.issued l :=
  ⟨by rw [Client.drop_pendingReqs,if_neg other],rfl⟩

section
variable {id k : Nat} {c : Client n} {req : PendingRequest n} {part : ConsensusPart n}

theorem all_voted {msgs : OrdMap (Fin n) (ReplyConsensusMessage n)}
    (votes : ∀ j m, msgs.find j = some m → Voted net j op m.result)
    (enough : n ≤ (msgs.entries.map (fun p => p.2.result)).count result) (j : Fin n) : Voted net j op result := by
  have size : msgs.entries.length ≤ n := by
    have bound := Finset.card_le_univ msgs.keys
    rwa [card_keys,Fintype.card_fin] at bound
  have most := count_le_length (a := result) (l := msgs.entries.map (fun p => p.2.result))
  rw [length_map] at most
  have full : msgs.keys = Finset.univ := Finset.eq_univ_of_card _ (by
    rw [card_keys,Fintype.card_fin]
    exact le_antisymm size (enough.trans most))
  obtain ⟨m,got⟩ := OrdMap.mem_keys.mp (full ▸ Finset.mem_univ j)
  have all := count_eq_length.mp (le_antisymm (count_le_length ..)
    (by rw [length_map]; exact size.trans enough) : (msgs.entries.map (fun p => p.2.result)).count result = _)
  have same := all m.result (mem_map.mpr ⟨(j,m),mem_entries.mpr got,rfl⟩)
  exact same ▸ votes j m got

theorem decide_unanimous {msgs : OrdMap (Fin n) (ReplyConsensusMessage n)} (enough : 2 ≤ msgs.size)
    (agree : ∀ j m, msgs.find j = some m → (Granted wire m.result ↔ Granted wire result)) :
    Granted wire (decide wire (Client.replyCounts msgs)) ↔ Granted wire result := by
  rw [Client.replyCounts,granted_decide]
  by_cases grants : Granted wire result
  · have all : (msgs.entries.map (fun p => p.2.result)).countP (fun result => Granted wire result) = msgs.size := by
      rw [size,← length_map (f := fun p : Fin n × ReplyConsensusMessage n => p.2.result)]
      refine countP_eq_length.mpr fun x mem => ?_
      obtain ⟨p,listed,rfl⟩ := mem_map.mp mem
      simpa using (agree p.1 p.2 (mem_entries.mp listed)).mpr grants
    rw [all]
    exact ⟨fun _ => grants,fun _ => enough⟩
  have none : (msgs.entries.map (fun p => p.2.result)).countP (fun result => Granted wire result) = 0 := by
    refine countP_eq_zero.mpr fun x mem => ?_
    obtain ⟨p,listed,rfl⟩ := mem_map.mp mem
    simpa using fun odd => grants ((agree p.1 p.2 (mem_entries.mp listed)).mp odd)
  rw [none]
  exact ⟨fun odd => by omega,fun odd => absurd odd grants⟩

section
variable (holds : ClientStands wire net id c)
include holds

theorem ClientStands.idle : Acts wire net id k (c,[]) :=
  ⟨by rw [append_nil]; exact holds,by simp⟩

theorem ClientStands.panic : Acts wire net id k (c.panic,[]) := by
  refine ⟨?_,by simp⟩
  rw [append_nil]
  exact fun l => (holds l).grows (fun _ _ vote => vote) (fun _ sent => sent) (fun sent => sent) rfl rfl
    (fun _ mem => mem) (fun _ mem _ => mem)

theorem ClientStands.replace (key : req.clientReqId = k)
    (consensus : ∀ part, req.kind = .consensus part → ConsensusStands wire net ⟨id,k⟩ req part ∧
      Outcomes c k fun result => part.sentConfirms ∧ (Granted wire result ↔ Granted wire part.decideResult))
    (inconsistent : ∀ quorum, req.kind = .inconsistent quorum → req.confirming → Completed c k) :
    Acts wire net id k (c.put req,[]) := by
  refine ⟨holds.step (by simp) (put_apart key) (fun _ mem => mem) (fun _ mem _ => mem) ?_,by simp⟩
  have got (new : PendingRequest n) (there : (c.put req).pendingReqs k = some new) : new = req := by
    rw [Client.put_pendingReqs,if_pos key.symm] at there
    exact (Option.some.inj there).symm
  rw [append_nil]
  exact {
    consensus := fun new part there kind => by cases got new there; exact consensus part kind
    inconsistent := fun new quorum there kind => by cases got new there; exact inconsistent quorum kind
    ended := (holds k).ended
    returned := (holds k).returned }

-- An outcome is sent, for the first time or again, and handed out if it has not been.
theorem ClientStands.decides {d : Client n} {packets : Network n}
    (pending : d.pendingReqs k = some req) (kind : req.kind = .consensus part)
    (packed : packets = sendMessageToAll (.client id) (.finalizeConsensus ⟨id,k⟩ part.decideResult))
    (apart : ∀ l, l ≠ k → d.pendingReqs l = c.pendingReqs l ∧ d.issued l = c.issued l) (issued : d.issued k = c.issued k)
    (handed : List Completion) (completed : d.completed = c.completed ++ handed)
    (outcome : ∀ x ∈ handed, x.reqId = k ∧ x.result = .ok part.decideResult) (stands : PartStands wire net ⟨id,k⟩ part)
    (slow : part.onSlowPath → part.transitionToSlowPathTimer = false) (sent : part.sentConfirms = true)
    (returned : Returned wire net ⟨id,k⟩ part.decideResult)
    (linked : Outcomes c k fun result => Granted wire result ↔ Granted wire part.decideResult)
    (fast : part.transitionToSlowPathTimer →
      ∀ j, ∃ result, Voted net j ⟨id,k⟩ result ∧ (Granted wire result ↔ Granted wire part.decideResult)) :
    Acts wire net id k (d,packets) := by
  have about : ∀ p ∈ packets, About ⟨id,k⟩ p.msg := packed ▸ forall_toAll fun _ => rfl
  have after (result : String) (before : Returned wire net ⟨id,k⟩ result) (agrees : Granted wire result ↔ Granted wire part.decideResult) :
      Returned wire (net ++ packets) ⟨id,k⟩ result := by
    refine before.grows Ir.voted_left fun other out => (finalized_toAll (packed ▸ out)).imp_left ?_
    rintro rfl
    exact agrees.symm
  have kept (done : Completion) (mem : done ∈ c.completed) : done ∈ d.completed := by
    rw [completed]
    exact mem_append_left _ mem
  have split (done : Completion) (mem : done ∈ d.completed) : done ∈ c.completed ∨ done ∈ handed := by
    rw [completed] at mem
    exact mem_append.mp mem
  refine ⟨holds.step about apart kept ?_ ⟨?_,?_,?_,?_⟩,about⟩
  · intro done mem other
    exact (split done mem).resolve_right fun new => other (outcome done new).1
  · intro new newPart there same
    cases pending.symm.trans there
    cases kind.symm.trans same
    refine ⟨{stands.grows Ir.voted_left with
      slow := slow
      confirming := fun _ => sent
      undecided := fun odd => by cases sent.symm.trans odd
      decided := fun _ => after _ returned Iff.rfl
      fast := fun _ timer j => ?_},?_⟩
    · obtain ⟨result,vote,agrees⟩ := fast timer j
      exact ⟨result,Ir.voted_left j result vote,agrees⟩
    intro done mem here result ok
    refine ⟨sent,?_⟩
    rcases split done mem with old | new
    · exact linked done old here result ok
    · cases ((outcome done new).2).symm.trans ok
      exact Iff.rfl
  · intro new quorum there same
    cases pending.symm.trans there
    cases kind.symm.trans same
  · intro out
    obtain ⟨done,mem,here⟩ := (holds _).ended (not_ended_toAll (packed ▸ out))
    exact ⟨done,kept done mem,here⟩
  intro done mem here result ok text listed
  rcases split done mem with old | new
  · exact after result ((holds _).returned done old here result ok text (issued ▸ listed)) (linked done old here result ok)
  · cases ((outcome done new).2).symm.trans ok
    exact after _ returned Iff.rfl

theorem slowPath_acts (key : req.clientReqId = k) (stands : PartStands wire net ⟨id,k⟩ part)
    (timer : part.transitionToSlowPathTimer = false) {msgs : OrdMap (Fin n) (ReplyConsensusMessage n)}
    (votes : ∀ j m, msgs.find j = some m → Voted net j ⟨id,k⟩ m.result)
    (agrees : ∀ result, Finalized net ⟨id,k⟩ result → (Granted wire result ↔ Granted wire (decide wire (Client.replyCounts msgs))))
    (linked : Outcomes c k fun result => Granted wire result ↔ Granted wire (decide wire (Client.replyCounts msgs))) :
    Acts wire net id k (Client.handleSlowPathConsensus id c req part msgs false) := by
  subst key
  rw [← stands.decides] at agrees linked
  refine holds.decides (update_self ..) rfl rfl (put_apart rfl) rfl [] (append_nil _).symm
    (by simp) {stands with} (fun _ => timer) rfl ⟨agrees,?_⟩ linked (fun odd => by cases timer.symm.trans odd)
  intro grants
  rw [stands.decides] at grants
  exact twoVotes_of_counts wire votes ((granted_decide wire _).mp grants)

theorem fastPath_acts (several : 2 ≤ n) (key : req.clientReqId = k)
    (stands : PartStands wire net ⟨id,k⟩ part) (slow : part.onSlowPath → part.transitionToSlowPathTimer = false)
    (fresh : req.continuationInvoked = false) (unsent : ∀ result, ¬ Finalized net ⟨id,k⟩ result)
    (running : Outcomes c k fun _ => False)
    {msgs : OrdMap (Fin n) (ReplyConsensusMessage n)} (votes : ∀ j m, msgs.find j = some m → Voted net j ⟨id,k⟩ m.result) :
    Acts wire net id k (Client.handleFastPathConsensus id c req part view msgs) := by
  unfold Client.handleFastPathConsensus
  split
  next result count got =>
    have enough : part.superQuorumSize ≤ count := by simpa using List.find?_some got
    rw [stands.superQuorumSize,OrdMap.mem_tally (mem_of_find?_eq_some got)] at enough
    have all := all_voted votes enough
    subst key
    dsimp only
    rw [fresh,if_neg (by simp)]
    refine holds.decides (update_self ..) rfl rfl (put_apart rfl) rfl
      [⟨req.clientReqId,view,.ok result⟩] rfl (by simp) {stands with} slow rfl ⟨fun other old => absurd old (unsent other),?_⟩
      (fun done mem here other ok => (running done mem here other ok).elim) fun _ j => ⟨result,all j,Iff.rfl⟩
    exact fun grants => ⟨⟨0,by omega⟩,⟨1,by omega⟩,by simp,⟨result,all _,grants⟩,⟨result,all _,grants⟩⟩
  · have moved : PartStands wire net ⟨id,k⟩ {part with
        onSlowPath := true
        transitionToSlowPathTimer := false} := {stands with}
    exact slowPath_acts holds key moved rfl votes (fun result sent => absurd sent (unsent result))
      (fun done mem here result ok => (running done mem here result ok).elim)

theorem transition_acts (got : c.pendingReqs k = some req) (kind : req.kind = .consensus part)
    (key : req.clientReqId = k) (once : ∀ i a b, Voted net i ⟨id,k⟩ a → Voted net i ⟨id,k⟩ b → a = b)
    (armed : part.transitionToSlowPathTimer) : Acts wire net id k (Client.transitionToConsensusSlowPath id c req part) := by
  obtain ⟨stands,linked⟩ := (holds k).consensus req part got kind
  unfold Client.transitionToConsensusSlowPath
  dsimp only
  split
  next msgs quorum =>
    obtain ⟨view,reached⟩ := QuorumSet.checkForAnyQuorum_some quorum
    obtain ⟨enough,listed⟩ := QuorumSet.checkForQuorum_some reached
    have votes (j : Fin n) (m : ReplyConsensusMessage n) (there : msgs.find j = some m) : Voted net j ⟨id,k⟩ m.result :=
      stands.stored view j m ((listed j m).mp there)
    have again (sent : part.sentConfirms) :
        Granted wire (decide wire (Client.replyCounts msgs)) ↔ Granted wire part.decideResult := by
      refine decide_unanimous (stands.required ▸ enough) fun j m there => ?_
      obtain ⟨result,vote,agrees⟩ := stands.fast sent armed j
      rw [once j _ _ (votes j m there) vote]
      exact agrees
    have moved : PartStands wire net ⟨id,k⟩ {part with
        onSlowPath := true
        transitionToSlowPathTimer := false} := {stands.toPartStands with}
    refine slowPath_acts holds key moved rfl votes ?_ ?_
    · intro result out
      cases sent : part.sentConfirms with
      | false => exact absurd out ((stands.undecided sent).2 result)
      | true => exact ((stands.decided sent).1 result out).trans (again sent).symm
    · intro done mem here result ok
      obtain ⟨sent,agrees⟩ := linked done mem here result ok
      exact agrees.trans (again sent).symm
  · refine holds.replace key (fun newPart same => ?_) (nofun)
    cases same
    exact ⟨{stands with
      slow := fun _ => rfl
      fast := nofun},linked⟩

theorem consensusReply_acts (several : 2 ≤ n)
    (keys : ∀ req, c.pendingReqs k = some req → req.clientReqId = k) (msg : ReplyConsensusMessage n) (mine : msg.opid = ⟨id,k⟩)
    (vote : msg.finalized = false → Voted net msg.replicaIdx ⟨id,k⟩ msg.result)
    (final : msg.finalized → ∃ result, Finalized net ⟨id,k⟩ result) :
    Acts wire net id k (Client.handleConsensusReply id c msg) := by
  unfold Client.handleConsensusReply
  rw [mine]
  rcases got : c.pendingReqs k with _ | req
  · exact holds.idle
  have key := keys req got
  dsimp only
  split
  next part kind =>
    obtain ⟨stands,linked⟩ := (holds k).consensus req part got kind
    split
    · exact holds.idle
    rename_i unsent
    have ongoing : part.sentConfirms = false := by simpa using unsent
    obtain ⟨fresh,none⟩ := stands.undecided ongoing
    -- a finalized reply would mean that an outcome has been sent
    have plain : msg.finalized = false := by
      cases flag : msg.finalized with
      | false => rfl
      | true =>
        obtain ⟨result,sent⟩ := final flag
        exact absurd sent (none result)
    have added : PartStands wire net ⟨id,k⟩ {part with
        consensusReplyQuorum := part.consensusReplyQuorum.add msg.view msg.replicaIdx msg} := by
      refine {stands.toPartStands with stored := ?_}
      intro view j m there
      rcases QuorumSet.stored_add there with ⟨_,rfl,rfl⟩ | old
      · exact vote plain
      · exact stands.stored view j m old
    have running : Outcomes c k fun _ => False := by
      intro done mem here result ok
      have sent := (linked done mem here result ok).1
      cases ongoing.symm.trans sent
    rw [if_neg (by simp [plain])]
    split
    next slow =>
      exact slowPath_acts holds key added (stands.slow slow.1) (fun j m there => added.stored _ j m there)
        (fun result sent => absurd sent (none result)) (fun done mem here result ok => (running done mem here result ok).elim)
    split
    · exact fastPath_acts holds several key added stands.slow fresh none running (fun j m there => added.stored _ j m there)
    refine holds.replace key (fun newPart equal => ?_) (nofun)
    cases equal
    exact ⟨{added with
      slow := stands.slow
      confirming := stands.confirming
      undecided := stands.undecided
      decided := stands.decided
      fast := stands.fast},linked⟩
  · exact holds.panic

theorem confirm_acts (pending : ∀ req, c.pendingReqs k = some req → req.clientReqId = k ∧ c.issued k = some (req.type,req.request))
    (msg : Ir.ConfirmMessage n) (mine : msg.opid = ⟨id,k⟩)
    (told : (∃ result, Finalized net ⟨id,k⟩ result) ∨ Ended net ⟨id,k⟩)
    (typed : Ended net ⟨id,k⟩ → ∃ text, c.issued k = some (.logged .inconsistent,text)) :
    Acts wire net id k (Client.handleConfirm c msg,[]) := by
  unfold Client.handleConfirm
  rw [mine]
  dsimp only
  rcases got : c.pendingReqs k with _ | req
  · exact holds.idle
  obtain ⟨key,listed⟩ := pending req got
  dsimp only
  split
  · exact holds.replace key (fun part kind => (by
      obtain ⟨stands,linked⟩ := (holds k).consensus req part got kind
      exact ⟨{stands with},linked⟩)) (fun quorum kind => (holds k).inconsistent req quorum got kind)
  have gone (new : PendingRequest n) : (c.drop k).pendingReqs k ≠ some new := by
    rw [Client.drop_pendingReqs,if_pos rfl]
    simp
  split
  · refine ⟨holds.step (by simp) drop_apart (fun _ mem => mem) (fun _ mem _ => mem) ?_,by simp⟩
    rw [append_nil]
    exact ⟨fun new part there => absurd there (gone new),fun new quorum there => absurd there (gone new),(holds k).ended,(holds k).returned⟩
  split
  next part kind =>
    obtain ⟨stands,linked⟩ := (holds k).consensus req part got kind
    have sent : part.sentConfirms = true := by
      cases flag : part.sentConfirms with
      | true => rfl
      | false =>
        rcases told with ⟨result,out⟩ | out
        · exact absurd out ((stands.undecided flag).2 result)
        · obtain ⟨text,odd⟩ := typed out
          rw [listed,Ir.PendingRequest.type_consensus kind] at odd
          cases odd
    refine ⟨holds.step (by simp) drop_apart (fun done mem => mem_append_left _ mem) ?_ ?_,by simp⟩
    · intro done mem other
      rcases mem_append.mp mem with old | new
      · exact old
      · cases mem_singleton.mp new
        exact absurd rfl other
    rw [append_nil]
    refine ⟨fun new part there => absurd there (gone new),fun new quorum there => absurd there (gone new),?_,?_⟩
    · intro out
      obtain ⟨done,mem,here⟩ := (holds k).ended out
      exact ⟨done,mem_append_left _ mem,here⟩
    intro done mem here result ok text issued
    rcases mem_append.mp mem with old | new
    · exact (holds k).returned done old here result ok text issued
    cases mem_singleton.mp new
    split at ok
    · cases ok; exact stands.decided sent
    · cases ok
  · exact holds.panic

theorem ClientStands.finish {d : Client n} {new : Network n}
    (about : ∀ p ∈ new, About ⟨id,k⟩ p.msg) (apart : ∀ l, l ≠ k → d.pendingReqs l = c.pendingReqs l ∧ d.issued l = c.issued l)
    (issued : d.issued = c.issued) (plain : ∀ text, c.issued k ≠ some (.logged .consensus,text))
    (pending : ∀ req part, d.pendingReqs k = some req → req.kind ≠ .consensus part) (done : Completion) (here : done.reqId = k)
    (completed : d.completed = c.completed ++ [done]) : Acts wire net id k (d,new) := by
  have ends : Completed d k := ⟨done,by simp [completed],here⟩
  refine ⟨holds.step about apart (fun x mem => by simp [completed,mem]) ?_ ?_,about⟩
  · intro x mem other
    rw [completed] at mem
    rcases mem_append.mp mem with old | last
    · exact old
    · cases mem_singleton.mp last
      exact absurd here other
  · exact ⟨fun req part got kind => absurd kind (pending req part got),fun _ _ _ _ _ => ends,fun _ => ends,
      fun _ _ _ _ _ text listed => absurd (issued ▸ listed) (plain text)⟩

theorem inconsistentReply_acts
    (pending : ∀ req, c.pendingReqs k = some req → req.clientReqId = k ∧ c.issued k = some (req.type,req.request))
    (msg : Ir.ReplyInconsistentMessage n) (mine : msg.opid = ⟨id,k⟩) : Acts wire net id k (Client.handleInconsistentReply id c msg) := by
  unfold Client.handleInconsistentReply
  rw [mine]
  dsimp only
  rcases got : c.pendingReqs k with _ | req
  · exact holds.idle
  obtain ⟨key,listed⟩ := pending req got
  dsimp only
  split
  next quorum kind =>
    split
    · refine holds.finish (forall_toAll fun _ => rfl) (put_apart key) rfl ?_ ?_ ⟨k,msg.view,.ok ""⟩ rfl rfl
      · intro text odd
        rw [listed,Ir.PendingRequest.type_inconsistent kind] at odd
        cases odd
      intro new part there
      change (c.put _).pendingReqs _ = _ at there
      rw [Client.put_pendingReqs,if_pos key.symm] at there
      cases there
      simp
    · refine holds.replace key (nofun) (fun other _ confirming => ?_)
      exact (holds k).inconsistent req quorum got kind confirming
  · exact holds.panic

section
variable (got : c.pendingReqs k = some req) (key : req.clientReqId = k) (listed : c.issued k = some (req.type,req.request))
include got key listed

theorem requestTimeout_acts : Acts wire net id k (Client.requestTimeout id c req) := by
  subst key
  have proposes (packets : Network n) (about : ∀ op, ∀ p ∈ packets, About op p.msg) :
      Acts wire net id req.clientReqId (c,packets) := by
    refine ⟨holds.step (about ⟨id,req.clientReqId⟩) (fun _ _ => ⟨rfl,rfl⟩) (fun _ mem => mem) (fun _ mem _ => mem) ?_,about _⟩
    exact (holds _).grows Ir.voted_left (unfinalized about) (unended about) rfl rfl
      (fun _ mem => mem) (fun _ mem _ => mem)
  unfold Client.requestTimeout
  split
  next kind =>
    refine holds.finish (by simp) drop_apart rfl ?_ ?_ ⟨req.clientReqId,0,.error .timeout⟩ rfl rfl
    · intro text odd
      rw [listed] at odd
      simp [PendingRequest.type,kind] at odd
    intro new part there
    change (c.drop _).pendingReqs _ = _ at there
    rw [Client.drop_pendingReqs,if_pos rfl] at there
    cases there
  next quorum kind =>
    split
    next confirming =>
      have ends := (holds _).inconsistent req quorum got kind confirming
      refine ⟨holds.step (forall_toAll fun _ => rfl) (fun _ _ => ⟨rfl,rfl⟩) (fun _ mem => mem) (fun _ mem _ => mem) ?_,forall_toAll fun _ => rfl⟩
      refine ⟨fun new part there other => ?_,fun _ _ _ _ _ => ends,fun _ => ends,fun _ _ _ _ _ text odd => ?_⟩
      · cases got.symm.trans there
        cases kind.symm.trans other
      · rw [listed,Ir.PendingRequest.type_inconsistent kind] at odd
        cases odd
    · exact proposes _ fun op => forall_toAll fun _ => trivial
  next part kind =>
    obtain ⟨stands,linked⟩ := (holds _).consensus req part got kind
    split
    next confirming =>
      have sent := stands.confirming confirming
      exact holds.decides got kind rfl (fun _ _ => ⟨rfl,rfl⟩) rfl [] (append_nil _).symm (by simp) stands.toPartStands stands.slow
        sent (stands.decided sent) (fun done mem here result ok => (linked done mem here result ok).2) (stands.fast sent)
    · exact proposes _ fun op => forall_toAll fun _ => trivial

end

theorem issue_acts (key : req.clientReqId = k) (new : Network n)
    (fresh : (∀ result, ¬ Finalized net ⟨id,k⟩ result) ∧ ¬ Ended net ⟨id,k⟩ ∧ ∀ done ∈ c.completed, done.reqId ≠ k)
    (proposes : ∀ p ∈ new, (∃ r, p.msg = .proposeConsensus r) ∨ ∃ r, p.msg = .proposeInconsistent r)
    (begins : req.confirming = false ∧ req.continuationInvoked = false)
    (part : ∀ part, req.kind = .consensus part → PartStands wire net ⟨id,k⟩ part ∧ part.onSlowPath = false ∧ part.sentConfirms = false) :
    Acts wire net id k (c.issue req,new) := by
  have about (op) (p) (mem : p ∈ new) : About op p.msg := by
    rcases proposes p mem with ⟨r,same⟩ | ⟨r,same⟩ <;> · rw [same]; trivial
  have unsent (result : String) : ¬ Finalized (net ++ new) ⟨id,k⟩ result := fun sent => fresh.1 result (unfinalized about result sent)
  have ongoing : ¬ Ended (net ++ new) ⟨id,k⟩ := fun sent => fresh.2.1 (unended about sent)
  have got (x : PendingRequest n) (there : (c.issue req).pendingReqs k = some x) : x = req := by
    simpa [Client.issue,key] using there.symm
  refine ⟨holds.step (about ⟨id,k⟩) ?_ (fun _ mem => mem) (fun _ mem _ => mem) ?_,about _⟩
  · intro l other
    simp [Client.issue,key,other]
  refine ⟨?_,?_,fun sent => absurd sent ongoing,fun done mem here => absurd here (fresh.2.2 done mem)⟩
  · intro x p there kind
    cases got x there
    obtain ⟨stands,slow,sent⟩ := part p kind
    refine ⟨{stands.grows Ir.voted_left with
      slow := fun odd => by cases slow.symm.trans odd
      confirming := fun odd => by cases begins.1.symm.trans odd
      undecided := fun _ => ⟨begins.2,unsent⟩
      decided := fun odd => by cases sent.symm.trans odd
      fast := fun odd => by cases sent.symm.trans odd},fun done mem here => absurd here (fresh.2.2 done mem)⟩
  · intro x quorum there kind odd
    cases got x there
    cases begins.1.symm.trans odd

end
end
end
end DbExp.Tapir.Lock
