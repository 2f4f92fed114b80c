import DbExp.Aria.BatchSerial

namespace DbExp.Aria.Distributed
open List
set_option linter.unusedSectionVars false

variable {κ ν γ : Type} [DecidableEq κ] [DecidableEq γ]

def earlier (getTs : BitField.Word → Nat) (epoch tid : Nat) (words : κ → BitField.Word) (k : κ) : Bool :=
  getEpoch (words k) = epoch ∧ getTs (words k) < tid ∧ getTs (words k) ≠ 0

def checkRequest (epoch tid : Nat) (words : κ → BitField.Word) (check : Bool × κ) : Bool × Flags :=
  (check.1,
    if check.1 then {war := earlier getRts epoch tid words check.2, waw := earlier getWts epoch tid words check.2}
    else {raw := earlier getWts epoch tid words check.2})

def checkResponse (flags : Flags) (response : Bool × Flags) : Flags :=
  if response.1 then {flags with war := flags.war || response.2.war, waw := flags.waw || response.2.waw}
  else {flags with raw := flags.raw || response.2.raw}

-- The loop over the read set: it is left at the first local key that an earlier transaction
-- writes, and the keys behind that one are not checked anywhere.
def analyzeReads (here raw : κ → Bool) : List κ → Bool × List (Bool × κ)
  | [] => (false,[])
  | k :: rest =>
    if here k then if raw k then (true,[]) else analyzeReads here raw rest
    else ((analyzeReads here raw rest).1,(false,k) :: (analyzeReads here raw rest).2)

-- analyze_dependency of a transaction: its flags so far, and the requests to other nodes.
def analyze (here : κ → Bool) (epoch : Nat) (words : κ → BitField.Word) (txn : Transaction κ ν) : Flags × List (Bool × κ) :=
  let reads := analyzeReads here (earlier getWts epoch txn.id words) txn.checkedReads
  ({ raw := reads.1
     war := (txn.writtenKeys.filter here).any (earlier getRts epoch txn.id words)
     waw := (txn.writtenKeys.filter here).any (earlier getWts epoch txn.id words) },
    reads.2 ++ (txn.writtenKeys.filter fun k => !here k).map (Prod.mk true))

variable (b : Batch n κ ν)

def reserveAll (words : κ → BitField.Word) : List (Fin n × Reservation κ) → Option (κ → BitField.Word)
  | [] => some words
  | (i,r) :: rest => (reserveKey b words (b.txns i).id r).bind fun words => reserveAll words rest

-- commit_transactions passes over a transaction that is not retried.
def requests (master : κ → γ) (home : Fin n → γ) (words : κ → BitField.Word) (i : Fin n) : Flags × List (Bool × κ) :=
  if (b.txns i).abortNoRetry || exempt b.context (b.txns i) then ({},[]) else analyze (fun k => master k = home i) b.epoch words (b.txns i)

def Made (done : List (Fin n × Reservation κ)) (r : Reservation κ) (id : Nat) : Prop := ∃ i, (i,r) ∈ done ∧ id = (b.txns i).id

variable {b}

theorem reserveAll_marks (fits : Fits b) (order : List (Fin n × Reservation κ))
    (marks : ∀ k, Marks b.epoch (words k) (Made b done (.read k)) (Made b done (.write k))) :
    ∃ final, reserveAll b words order = some final ∧
      ∀ k, Marks b.epoch (final k) (Made b (order.reverse ++ done) (.read k)) (Made b (order.reverse ++ done) (.write k)) := by
  induction order generalizing words done with
  | nil => exact ⟨words,rfl,marks⟩
  | cons first rest ih =>
    obtain ⟨_,made,after⟩ := reserveKey_marks fits first.1 first.2 marks
    have more : ∀ r y, r = first.2 ∧ y = (b.txns first.1).id ∨ Made b done r y ↔ Made b (first :: done) r y := by
      rcases first with ⟨_,_⟩
      intro r y
      simp only [Made,mem_cons,Prod.mk.injEq,or_and_right,exists_or,and_assoc,exists_eq_left]
    obtain ⟨final,all,marked⟩ := ih fun k => (after k).congr (more _) (more _)
    refine ⟨final,?_,?_⟩
    · rw [reserveAll,made]
      exact all
    · intro k
      rw [reverse_cons,append_assoc]
      exact marked k

theorem analyzeReads_iff (here raw : κ → Bool) (keys : List κ) :
    ((analyzeReads here raw keys).1 = true ∨ ∃ k, (false,k) ∈ (analyzeReads here raw keys).2 ∧ raw k = true) ↔
      ∃ k ∈ keys, raw k = true := by
  induction keys with
  | nil => simp [analyzeReads]
  | cons k rest ih =>
    unfold analyzeReads
    by_cases mine : here k = true
    · by_cases got : raw k = true
      · simp [mine,got]
      · simpa [mine,got] using ih
    · rw [if_neg mine]
      simp only [mem_cons,← ih,Prod.mk.injEq,true_and,or_and_right,exists_or,exists_eq_left]
      exact or_left_comm

theorem analyzeReads_read (here raw : κ → Bool) (keys : List κ) : (true,k) ∉ (analyzeReads here raw keys).2 := by
  induction keys with
  | nil => simp [analyzeReads]
  | cons k rest ih =>
    unfold analyzeReads
    split_ifs <;> simp [ih]

theorem responses_iff (flags : Flags) (responses : List (Bool × Flags)) :
    ((responses.foldl checkResponse flags).raw = true ↔ flags.raw = true ∨ ∃ f, (false,f) ∈ responses ∧ f.raw = true) ∧
    ((responses.foldl checkResponse flags).war = true ↔ flags.war = true ∨ ∃ f, (true,f) ∈ responses ∧ f.war = true) ∧
    ((responses.foldl checkResponse flags).waw = true ↔ flags.waw = true ∨ ∃ f, (true,f) ∈ responses ∧ f.waw = true) := by
  induction responses generalizing flags with
  | nil => simp
  | cons r rest ih =>
    obtain ⟨raw,war,waw⟩ := ih (checkResponse flags r)
    rw [foldl_cons,raw,war,waw]
    rcases r with ⟨_ | _,f⟩ <;> simp [checkResponse,or_and_right,exists_or,or_assoc]

-- Once all reservations are made, the flags are those of the definition for any placement of
-- the keys, whatever the order of the responses.
theorem flags_exact (b : Batch n κ ν) (fits : Fits b) (order : List (Fin n × Reservation κ))
    (complete : ∀ i r, (i,r) ∈ order ↔ r ∈ plan b i) (master : κ → γ) (home : Fin n → γ) :
    ∃ words, reserveAll b b.words order = some words ∧
      ∀ i, (b.txns i).abortNoRetry = false → exempt b.context (b.txns i) = false → ∀ responses : List (Bool × Flags),
        responses.Perm ((requests b master home words i).2.map (checkRequest b.epoch (b.txns i).id words)) →
        let flags := responses.foldl checkResponse (requests b master home words i).1
        (flags.waw = true ↔ ∃ k ∈ (b.txns i).writtenKeys, ∃ j, (b.txns j).id < (b.txns i).id ∧ .write k ∈ plan b j) ∧
        (flags.war = true ↔ ∃ k ∈ (b.txns i).writtenKeys, ∃ j, (b.txns j).id < (b.txns i).id ∧ .read k ∈ plan b j) ∧
        (flags.raw = true ↔ ∃ k ∈ (b.txns i).checkedReads, ∃ j, (b.txns j).id < (b.txns i).id ∧ .write k ∈ plan b j) := by
  have stale : ∀ k, Marks b.epoch (b.words k) (Made b [] (.read k)) (Made b [] (.write k)) :=
    fun k => .inl ⟨fits.stale k,by simp [Made],by simp [Made]⟩
  obtain ⟨words,made,marks⟩ := reserveAll_marks fits order stale
  have below : ∀ id r, (∃ y, Made b (order.reverse ++ []) r y ∧ y < id) ↔ ∃ j, (b.txns j).id < id ∧ r ∈ plan b j := by
    intro id r
    simp only [Made,append_nil,mem_reverse,complete]
    constructor
    · rintro ⟨y,⟨j,member,rfl⟩,less⟩
      exact ⟨j,less,member⟩
    · rintro ⟨j,less,member⟩
      exact ⟨_,⟨j,member,rfl⟩,less⟩
  refine ⟨words,made,?_⟩
  intro i retried checked responses any
  have written : ∀ k, earlier getWts b.epoch (b.txns i).id words k = true ↔ ∃ j, (b.txns j).id < (b.txns i).id ∧ .write k ∈ plan b j := by
    intro k
    rw [earlier,decide_eq_true_iff,(marks k).written_below,below]
  have read : ∀ k, earlier getRts b.epoch (b.txns i).id words k = true ↔ ∃ j, (b.txns j).id < (b.txns i).id ∧ .read k ∈ plan b j := by
    intro k
    rw [earlier,decide_eq_true_iff,(marks k).read_below,below]
  have parts : ∀ (p : κ → Bool) (keys : List κ) (here : κ → Bool),
      (∃ k ∈ keys, p k = true) ↔ (keys.filter here).any p = true ∨ ∃ k, (k ∈ keys ∧ here k = false) ∧ p k = true := by
    intro p keys here
    simp only [any_eq_true,mem_filter]
    rw [← exists_or]
    refine exists_congr fun k => ?_
    cases here k <;> simp
  obtain ⟨raw,war,waw⟩ := responses_iff (requests b master home words i).1 responses
  simp only [any.mem_iff] at raw war waw
  refine ⟨waw.trans ?_,war.trans ?_,raw.trans ?_⟩
  · simp only [← written]
    rw [parts _ _ fun k => decide (master k = home i)]
    simp [requests,retried,checked,analyze,checkRequest,analyzeReads_read]
  · simp only [← read]
    rw [parts _ _ fun k => decide (master k = home i)]
    simp [requests,retried,checked,analyze,checkRequest,analyzeReads_read]
  · simp only [← written]
    rw [← analyzeReads_iff fun k => decide (master k = home i)]
    simp [requests,retried,checked,analyze,checkRequest]

def remoteRead (optimised index gone : Bool) (wide epoch : Nat) : Batch 2 Nat Nat where
  context := ⟨optimised,false,false⟩
  epoch := epoch
  txns := ![⟨1 + wide,false,[],[(0,fun _ => 1)]⟩,⟨2 + 2 * wide,gone,[(0,index)],if optimised then [] else [(1,fun _ => 1)]⟩]
  db := fun _ => 0
  words := fun _ => 0

def answered (b : Batch 2 Nat Nat) (words : Nat → BitField.Word) (i : Fin 2) : Flags :=
  ((requests b (fun k => k) ![1,1] words i).2.map (checkRequest b.epoch (b.txns i).id words)).foldl checkResponse
    (requests b (fun k => k) ![1,1] words i).1

def plainRead : Batch 2 Nat Nat := remoteRead false false false 0 1

theorem remote_read_flagged : ∃ words, reserveAll plainRead (fun _ => 0) [(1,.write 1),(1,.read 0),(0,.write 0)] =
    some words ∧ (answered plainRead words 1).raw = true := by
  have fits : Fits plainRead := ⟨by decide,by decide,by decide,by decide,fun _ => (by decide : getEpoch 0 < 1)⟩
  have complete : ∀ (i : Fin 2) (r : Reservation Nat),
      (i,r) ∈ [(1,Reservation.write 1),(1,.read 0),(0,.write 0)] ↔ r ∈ plan plainRead i := by
    intro i r
    fin_cases i <;> simp [plan,reservations,exempt,Transaction.isReadOnly,Transaction.checkedReads,Transaction.writtenKeys,plainRead,
      remoteRead,or_comm]
  obtain ⟨words,made,exact'⟩ := flags_exact plainRead fits _ complete (fun k => k) ![1,1]
  exact ⟨words,made,(exact' 1 rfl rfl _ (List.Perm.refl _)).2.2.mpr ⟨0,by decide,0,by decide,by decide⟩⟩

-- A read-only transaction that is exempt is not analyzed, nor is one that is not retried; a
-- key read through a local index is not checked; ids past 20 bits leave no trace in their
-- field and epochs past 24 bits in no word; and words of this epoch are taken for new ones.
theorem unflagged_reads :
    let raw := fun b => (reserveAll b b.words ((plan b 0).map (Prod.mk 0) ++ (plan b 1).map (Prod.mk 1))).map fun words =>
      (answered b words 1).raw
    raw (remoteRead true false false 0 1) = some false ∧ raw (remoteRead false true false 0 1) = some false ∧
      raw (remoteRead false false true 0 1) = some false ∧ raw (remoteRead false false false (2^20 - 1) 1) = some false ∧
      raw (remoteRead false false false 0 (2^24)) = some false ∧ raw plainRead = some true ∧
      raw {plainRead with txns := ![⟨1,false,[],[]⟩,plainRead.txns 1], words := fun _ => setWts (setEpoch 0 1) 1} = some true := by
  decide +kernel

end DbExp.Aria.Distributed
