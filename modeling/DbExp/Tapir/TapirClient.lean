import DbExp.Tapir.TapirStore

namespace DbExp.Tapir.TapirStore
open List

-- store/tapirstore/shardclient.cc. What a shard's consensus invocation hands to
-- PrepareCallback is the reply a fast quorum gave alike, or the decision over the
-- replies of a quorum, counted.
abbrev ReplyFormat := Codec Reply {status := .ok}

inductive Path where
  | fast (reply : Reply)
  | slow (results : OrdMap String Nat)

section
variable (config : Configuration) (format : ReplyFormat)

def decideLoop : List (String × Nat) → Nat → Timestamp → String
  | [],okCount,ts =>
    format.serializeToString (if config.quorumSize ≤ okCount then {status := .ok} else {status := .retry, timestamp := some ts})
  | (s,count) :: rest,okCount,ts =>
    let reply := format.parseFromString s
    match reply.status with
    | .ok => decideLoop rest (okCount + count) ts
    | .fail => s
    | .retry => decideLoop rest okCount (max ts (reply.timestamp.getD .zero))
    | _ => decideLoop rest okCount ts

def tapirDecide (results : OrdMap String Nat) : String := decideLoop config format results.entries 0 (.ofTime 0)

def delivered : Path → String
  | .fast reply => format.serializeToString reply
  | .slow results => tapirDecide config format results

def prepareCallback (replyStr : String) : ReplyCode × Timestamp :=
  let reply := format.parseFromString replyStr
  (reply.status,reply.timestamp.getD .zero)

def answer (path : Path) : ReplyCode × Timestamp := prepareCallback format (delivered config format path)

end

-- store/tapirstore/client.cc. The promises are looked at in order; a refusal ends the
-- round, and an abstention or an unknown code leaves the status as it was.
def collect : List ReplyCode → ReplyCode → ReplyCode
  | [],status => status
  | .ok :: rest,status => collect rest status
  | .fail :: _,_ => .fail
  | .retry :: rest,_ => collect rest .retry
  | .timeout :: rest,_ => collect rest .retry
  | .abstain :: rest,status => collect rest status
  | .networkFailure :: rest,status => collect rest status

-- The timestamps the shards propose are collected in variables that are not the one
-- compared with the clock.
def clientPrepare (timestamp : Timestamp) (answers : List (ReplyCode × Timestamp)) (now : Nat) : ReplyCode × Timestamp :=
  let status := collect (answers.map Prod.fst) .ok
  let proposed := 0
  (status,if status = .retry then timestamp.setTimestamp (if proposed < now then now else proposed) else timestamp)

inductive Sent where
  | prepare (shard : Nat) (timestamp : Timestamp)
  | commit (shard timestamp : Nat)
  | abort (shard : Nat)
  deriving DecidableEq, Repr

def commitRetries : Nat := 5

-- One call of Client::Commit: the shards that take part, in order, what each shard's
-- invocation delivers in each round, and the readings of the clock.
structure CommitCall where
  config : Configuration
  format : ReplyFormat
  clientId : Nat
  participants : List Nat
  outcome : Nat → Nat → Path
  clock : Nat → Nat

namespace CommitCall

section
variable (c : CommitCall)

def answers (round : Nat) : List (ReplyCode × Timestamp) :=
  c.participants.map fun shard => answer c.config c.format (c.outcome round shard)

-- The rounds of Prepare, with at most `left` more after this one: the status of the
-- last, and the timestamps of all.
def rounds : Nat → Nat → Timestamp → ReplyCode × List Timestamp
  | 0,round,timestamp => ((clientPrepare timestamp (c.answers round) (c.clock (round + 1))).1,[timestamp])
  | left + 1,round,timestamp =>
    let (status,next) := clientPrepare timestamp (c.answers round) (c.clock (round + 1))
    if status = .retry then
      let (last,times) := rounds left (round + 1) next
      (last,timestamp :: times)
    else (status,[timestamp])

def prepares : ReplyCode × List Timestamp := c.rounds (commitRetries - 1) 0 ⟨c.clock 0,c.clientId⟩

def sent : List Sent :=
  c.prepares.2.flatMap (fun timestamp => c.participants.map fun shard => .prepare shard timestamp) ++
    if c.prepares.1 = .ok then c.participants.map fun shard => .commit shard 0
    else c.participants.map fun shard => .abort shard

def lastRound : Nat := c.prepares.2.length - 1

-- Commit goes out only if every participant answered OK in the last round.
def Atomic : Prop :=
  ∀ shard time, .commit shard time ∈ c.sent →
    ∀ other ∈ c.participants, (answer c.config c.format (c.outcome c.lastRound other)).1 = .ok

end

end CommitCall

def Path.Silent : Path → Prop
  | .fast reply => reply.status = .abstain ∨ reply.status = .networkFailure
  | .slow _ => False

def Vetoes (code : ReplyCode) : Prop := code = .fail ∨ code = .retry ∨ code = .timeout

def Retries (codes : List ReplyCode) : Prop := .fail ∉ codes ∧ (.retry ∈ codes ∨ .timeout ∈ codes)

theorem decideLoop_status (config : Configuration) (format : ReplyFormat) (results : List (String × Nat)) (okCount : Nat) (ts : Timestamp) :
    (format.parseFromString (decideLoop config format results okCount ts)).status = .ok ∨
    (format.parseFromString (decideLoop config format results okCount ts)).status = .fail ∨
    (format.parseFromString (decideLoop config format results okCount ts)).status = .retry := by
  induction results generalizing okCount ts with
  | nil =>
    unfold decideLoop
    rw [format.parse_serialize]
    split
    · exact .inl rfl
    · exact .inr (.inr rfl)
  | cons head rest ih =>
    unfold decideLoop
    dsimp only
    split
    · exact ih _ _
    next refused =>
      exact .inr (.inl refused)
    · exact ih _ _
    · exact ih _ _

theorem answer_silent (config : Configuration) (format : ReplyFormat) {path : Path} :
    path.Silent ↔ (answer config format path).1 = .abstain ∨ (answer config format path).1 = .networkFailure := by
  unfold answer prepareCallback
  cases path with
  | fast reply => simp [delivered,format.parse_serialize,Path.Silent]
  | slow results =>
    simp only [Path.Silent,delivered,tapirDecide,false_iff]
    rcases decideLoop_status config format results.entries 0 (.ofTime 0) with same | same | same <;> simp [same]

theorem Retries.vetoed (retries : Retries codes) : ∃ code ∈ codes, Vetoes code := by
  rcases retries.2 with got | got
  · exact ⟨_,got,.inr (.inl rfl)⟩
  · exact ⟨_,got,.inr (.inr rfl)⟩

inductive Collected (status : ReplyCode) (codes : List ReplyCode) : ReplyCode → Prop where
  | refused (found : .fail ∈ codes) : Collected status codes .fail
  | retried (found : Retries codes) : Collected status codes .retry
  | passed (none_vetoes : ∀ code ∈ codes, ¬ Vetoes code) : Collected status codes status

theorem Collected.skip (mild : ¬ Vetoes code) (rest : Collected status codes result) : Collected status (code :: codes) result := by
  cases rest with
  | refused got => exact .refused (.tail _ got)
  | retried got =>
    refine .retried ⟨fun mem => ?_,got.2.imp (.tail _) (.tail _)⟩
    rcases mem_cons.mp mem with here | there
    · exact mild (.inl here.symm)
    · exact got.1 there
  | passed none_vetoes =>
    refine .passed fun other mem => ?_
    rcases mem_cons.mp mem with rfl | there
    · exact mild
    · exact none_vetoes other there

theorem Collected.retry (again : code = .retry ∨ code = .timeout) (rest : Collected .retry codes result) :
    Collected status (code :: codes) result := by
  have here : .retry ∈ code :: codes ∨ .timeout ∈ code :: codes := by
    rcases again with rfl | rfl
    · exact .inl mem_cons_self
    · exact .inr mem_cons_self
  have apart : code ≠ .fail := by rcases again with rfl | rfl <;> simp
  cases rest with
  | refused got => exact .refused (.tail _ got)
  | retried got => exact .retried ⟨by simpa [apart.symm] using got.1,here⟩
  | passed none_vetoes => exact .retried ⟨fun mem => by
      rcases mem_cons.mp mem with same | there
      · exact apart same.symm
      · exact none_vetoes _ there (.inl rfl),here⟩

theorem collect_collected (codes : List ReplyCode) (status : ReplyCode) : Collected status codes (collect codes status) := by
  induction codes generalizing status with
  | nil => exact .passed nofun
  | cons code rest ih =>
    cases code with
    | ok | abstain | networkFailure => exact (ih status).skip (by simp [Vetoes])
    | fail => exact .refused mem_cons_self
    | retry => exact (ih .retry).retry (.inl rfl)
    | timeout => exact (ih .retry).retry (.inr rfl)

namespace CommitCall
variable {c : CommitCall} {round : Nat}

def codes (c : CommitCall) (round : Nat) : List ReplyCode := (c.answers round).map Prod.fst

theorem mem_codes : code ∈ c.codes round ↔ ∃ shard ∈ c.participants, (answer c.config c.format (c.outcome round shard)).1 = code := by
  simp [codes,answers]

theorem rounds_last (left round : Nat) (timestamp : Timestamp) :
    (c.rounds left round timestamp).2 ≠ [] ∧
    (∀ r, r + 1 < (c.rounds left round timestamp).2.length → Retries (c.codes (round + r))) ∧
    (c.rounds left round timestamp).1 = collect (c.codes (round + ((c.rounds left round timestamp).2.length - 1))) .ok ∧
    (c.rounds left round timestamp).2.length ≤ left + 1 ∧
    ((c.rounds left round timestamp).1 = .retry → (c.rounds left round timestamp).2.length = left + 1) := by
  induction left generalizing round timestamp with
  | zero => simp [rounds,clientPrepare,codes]
  | succ left ih =>
    unfold rounds
    dsimp only
    split
    next again =>
      obtain ⟨nonempty,earlier,last,bound,full⟩ := ih (round + 1) (clientPrepare timestamp (c.answers round) (c.clock (round + 1))).2
      generalize c.rounds left (round + 1) (clientPrepare timestamp (c.answers round) (c.clock (round + 1))).2 = result at *
      have counted : 0 < result.2.length := length_pos_iff.mpr nonempty
      have first : Retries (c.codes round) := by
        have ended := collect_collected (c.codes round) .ok
        rw [show collect (c.codes round) .ok = .retry from again] at ended
        cases ended with
        | retried got => exact got
      refine ⟨by simp,fun r inside => ?_,?_,?_,?_⟩
      · cases r with
        | zero => exact first
        | succ r =>
          rw [show round + (r + 1) = round + 1 + r by omega]
          exact earlier r (by simpa using inside)
      · rw [last]
        simp only [length_cons]
        rw [show round + (result.2.length + 1 - 1) = round + 1 + (result.2.length - 1) by omega]
      · simpa using bound
      · intro retry
        simpa using full retry
    next decided =>
      exact ⟨by simp,by simp,rfl,by simp,fun retry => absurd retry decided⟩

theorem commit_sent : .commit shard time ∈ c.sent ↔ c.prepares.1 = .ok ∧ shard ∈ c.participants ∧ time = 0 := by
  unfold sent
  split
  next ok =>
    simp [ok,eq_comm]
  next other =>
    simp [other]

def Counted (c : CommitCall) : Prop :=
  ∀ round < commitRetries, (∀ earlier < round, Retries (c.codes earlier)) →
    ∀ shard ∈ c.participants, (c.outcome round shard).Silent → ∃ code ∈ c.codes round, Vetoes code

theorem last_or_retried (reached : ∀ earlier < round, Retries (c.codes earlier)) (within : round < commitRetries) :
    round = c.lastRound ∨ Retries (c.codes round) := by
  obtain ⟨nonempty,earlier,last,_,full⟩ := rounds_last (c := c) (commitRetries - 1) 0 ⟨c.clock 0,c.clientId⟩
  rcases Nat.lt_trichotomy round c.lastRound with before | here | after
  · refine .inr ?_
    have tried := earlier round (by unfold lastRound prepares at before; omega)
    rwa [Nat.zero_add] at tried
  · exact .inl here
  -- The last round would be one that is tried again, so it is the last allowed.
  exfalso
  have tried := reached c.lastRound after
  have status : c.prepares.1 = .retry := by
    have ended := collect_collected (c.codes c.lastRound) .ok
    rw [Nat.zero_add] at last
    change c.prepares.1 = collect (c.codes c.lastRound) .ok at last
    rw [last]
    generalize collect (c.codes c.lastRound) .ok = result at ended
    cases ended with
    | refused got => exact absurd got tried.1
    | retried _ => rfl
    | passed none_vetoes =>
      obtain ⟨code,mem,vetoes⟩ := tried.vetoed
      exact absurd vetoes (none_vetoes code mem)
  have total := full status
  change c.prepares.2.length = _ at total
  unfold lastRound at after
  omega

theorem last_status : c.prepares.1 = collect (c.codes c.lastRound) .ok := by
  obtain ⟨_,_,last,_⟩ := rounds_last (c := c) (commitRetries - 1) 0 ⟨c.clock 0,c.clientId⟩
  rwa [Nat.zero_add] at last

theorem lastRound_reached : c.lastRound < commitRetries ∧ ∀ earlier < c.lastRound, Retries (c.codes earlier) := by
  obtain ⟨nonempty,earlier,_,bound,_⟩ := rounds_last (c := c) (commitRetries - 1) 0 ⟨c.clock 0,c.clientId⟩
  change c.prepares.2.length ≤ _ at bound
  refine ⟨by unfold lastRound; unfold commitRetries at *; omega,fun r before => ?_⟩
  have tried := earlier r (by unfold lastRound prepares at before; omega)
  rwa [Nat.zero_add] at tried

end CommitCall

theorem atomic_iff_silence_is_vetoed (c : CommitCall) : c.Atomic ↔ c.Counted := by
  constructor
  · intro atomic round within reached shard member silent
    by_contra none_vetoes
    rcases CommitCall.last_or_retried reached within with rfl | retries
    · have ok : c.prepares.1 = .ok := by
        rw [CommitCall.last_status]
        have ended := collect_collected (c.codes c.lastRound) .ok
        generalize collect (c.codes c.lastRound) .ok = result at ended
        cases ended with
        | refused found => exact absurd ⟨_,found,.inl rfl⟩ none_vetoes
        | retried found => exact absurd found.vetoed none_vetoes
        | passed _ => rfl
      have voted := atomic shard 0 (CommitCall.commit_sent.mpr ⟨ok,member,rfl⟩) shard member
      rcases (answer_silent c.config c.format).mp silent with other | other
      · rw [voted] at other
        cases other
      · rw [voted] at other
        cases other
    · exact none_vetoes retries.vetoed
  intro counted shard time committed other member
  obtain ⟨ok,_⟩ := CommitCall.commit_sent.mp committed
  rw [CommitCall.last_status] at ok
  have ended := collect_collected (c.codes c.lastRound) .ok
  rw [ok] at ended
  cases ended with
  | passed none_vetoes =>
    have mild := none_vetoes _ (CommitCall.mem_codes.mpr ⟨other,member,rfl⟩)
    have heard : ¬ (c.outcome c.lastRound other).Silent := fun silent => by
      obtain ⟨code,found,vetoes⟩ := counted _ CommitCall.lastRound_reached.1 CommitCall.lastRound_reached.2 other member silent
      exact none_vetoes code found vetoes
    rw [answer_silent c.config c.format] at heard
    unfold Vetoes at mild
    cases code : (answer c.config c.format (c.outcome c.lastRound other)).1 <;> simp_all

-- A plain text format, to run the client with: numbers in unary, one after the other.
def writeNat (n : Nat) (rest : List Char) : List Char := List.replicate n 'i' ++ ':' :: rest

def readNat (text : List Char) : Nat × List Char :=
  ((text.takeWhile (fun c => c = 'i')).length,(text.dropWhile (fun c => c = 'i')).drop 1)

theorem read_write (n : Nat) (rest : List Char) : readNat (writeNat n rest) = (n,rest) := by
  have taken : (writeNat n rest).takeWhile (fun c => c = 'i') = List.replicate n 'i' := by
    unfold writeNat
    rw [takeWhile_append_of_pos (by simp)]
    simp
  have dropped : (writeNat n rest).dropWhile (fun c => c = 'i') = ':' :: rest := by
    unfold writeNat
    rw [dropWhile_append_of_pos (by simp)]
    simp
  simp [readNat,taken,dropped]

def ReplyCode.toNat : ReplyCode → Nat
  | .ok => 0
  | .fail => 1
  | .retry => 2
  | .abstain => 3
  | .timeout => 4
  | .networkFailure => 5

def ReplyCode.ofNat : Nat → ReplyCode
  | 0 => .ok
  | 1 => .fail
  | 2 => .retry
  | 3 => .abstain
  | 4 => .timeout
  | _ => .networkFailure

def Reply.text (reply : Reply) : String :=
  let stamp := reply.timestamp.getD .zero
  String.ofList (writeNat (ReplyCode.toNat reply.status) (writeNat reply.timestamp.isSome.toNat (writeNat stamp.timestamp
    (writeNat stamp.id (writeNat reply.value.isSome.toNat (reply.value.getD "").toList)))))

def Reply.ofText (text : String) : Reply :=
  let (status,rest) := readNat text.toList
  let (stamped,rest) := readNat rest
  let (time,rest) := readNat rest
  let (id,rest) := readNat rest
  let (valued,rest) := readNat rest
  {status := ReplyCode.ofNat status, value := if valued = 0 then none else some (String.ofList rest),
   timestamp := if stamped = 0 then none else some ⟨time,id⟩}

def plainText : ReplyFormat where
  serializeToString := Reply.text
  parseFromString := Reply.ofText
  parse_serialize := by
    rintro ⟨status,value,timestamp⟩
    simp only [Reply.text,Reply.ofText,String.toList_ofList,read_write]
    cases status <;> cases value <;> cases timestamp <;> simp [ReplyCode.toNat,ReplyCode.ofNat]
  parse_nothing := by decide

def abstained : CommitCall where
  config := ⟨3,1,three_replicas⟩
  format := plainText
  clientId := 7
  participants := [0,1]
  outcome := fun _ shard => .fast {status := if shard = 0 then .ok else .abstain}
  clock := fun reading => reading + 1

theorem commit_despite_abstention : ¬ ∀ c : CommitCall, c.Atomic := by
  intro claimed
  have sent : .commit 0 0 ∈ abstained.sent := by decide +kernel
  have voted := claimed abstained 0 0 sent 1 (by decide +kernel)
  exact absurd voted (by decide +kernel)

theorem committedCheck_later {s : Store} (stopped : s.committedCheck t key = some (code,proposed)) : t < proposed := by
  unfold Store.committedCheck at stopped
  split at stopped
  · cases stopped
  split at stopped
  next early =>
    cases stopped
    exact early.2
  split at stopped
  · cases stopped
  split at stopped
  next early =>
    cases stopped
    exact early
  · cases stopped

structure CatchesUp (timestamp : Timestamp) (answers : List (ReplyCode × Timestamp)) (now : Nat) : Prop where
  bound : ∀ a ∈ answers, a.1 = .retry → a.2 ≤ (clientPrepare timestamp answers now).2
  passes : ∀ a ∈ answers, a.1 = .retry → ∀ (s : Store) (key : String),
    s.committedCheck (clientPrepare timestamp answers now).2 key ≠ some (.retry,a.2)

theorem clientPrepare_retries (timestamp : Timestamp) (answers : List (ReplyCode × Timestamp)) (now : Nat)
    (retries : Retries (answers.map Prod.fst)) : clientPrepare timestamp answers now = (.retry,timestamp.setTimestamp now) := by
  have status : collect (answers.map Prod.fst) .ok = .retry := by
    have ended := collect_collected (answers.map Prod.fst) .ok
    generalize collect (answers.map Prod.fst) .ok = status at ended
    cases ended with
    | refused got => exact absurd got retries.1
    | retried _ => rfl
    | passed none_vetoes =>
      obtain ⟨code,mem,vetoes⟩ := retries.vetoed
      exact absurd vetoes (none_vetoes code mem)
  unfold clientPrepare
  rw [status]
  dsimp only
  rw [if_pos rfl]
  congr 2
  split <;> omega

theorem catches_up_iff_clock_past (timestamp : Timestamp) (answers : List (ReplyCode × Timestamp)) (now : Nat)
    (again : .retry ∈ answers.map Prod.fst) (unrefused : .fail ∉ answers.map Prod.fst) :
    CatchesUp timestamp answers now ↔ ∀ a ∈ answers, a.1 = .retry → a.2 ≤ ⟨now,timestamp.id⟩ := by
  have next := clientPrepare_retries timestamp answers now ⟨unrefused,.inl again⟩
  constructor
  · intro catches a member retry
    have bound := catches.bound a member retry
    rw [next] at bound
    exact bound
  intro past
  have bound : ∀ a ∈ answers, a.1 = .retry → a.2 ≤ (clientPrepare timestamp answers now).2 := by
    intro a member retry
    rw [next]
    exact past a member retry
  refine ⟨bound,fun a member retry s key stopped => ?_⟩
  exact absurd (bound a member retry) (not_le.mpr (committedCheck_later stopped))

theorem catches_up_when_clock_leads : CatchesUp ⟨3,7⟩ [(.ok,.zero),(.retry,⟨9,4⟩),(.retry,⟨6,2⟩)] 12 :=
  (catches_up_iff_clock_past ⟨3,7⟩ [(.ok,.zero),(.retry,⟨9,4⟩),(.retry,⟨6,2⟩)] 12 (by decide) (by decide)).mpr (by decide)

-- The clock of the client is behind the version that was proposed.
theorem proposal_dropped : ¬ ∀ (timestamp : Timestamp) (answers : List (ReplyCode × Timestamp)) (now : Nat),
    .retry ∈ answers.map Prod.fst → .fail ∉ answers.map Prod.fst → CatchesUp timestamp answers now := by
  intro claimed
  have bound := (claimed ⟨3,7⟩ [(.retry,⟨9,4⟩)] 5 (by decide) (by decide)).bound (.retry,⟨9,4⟩) (by decide) rfl
  exact absurd bound (by decide)

end DbExp.Tapir.TapirStore
