import DbExp.Aria.Batch

namespace DbExp.Aria.Rerun
open Function

-- A transaction object: the epoch and the slot it was generated for are its name; `storage`
-- is the entry of `storages` it was given then.
structure Txn (Q : Type) where
  name : Nat × Nat
  query : Q
  storage : Nat
  abortLock : Bool
  deriving DecidableEq, Repr

section
variable {Q : Type}

def cleanupFrom : Nat → Nat → Nat → (Nat → Option (Txn Q)) → (Nat → Option (Txn Q)) × Nat
  | 0,_,it,slots => (slots,it)
  | left+1,i,it,slots =>
    match slots i with
    | none => (slots,it)
    | some txn =>
      if txn.abortLock then cleanupFrom left (i+1) (it+1) (update (update slots it (some txn)) i (slots it))
      else cleanupFrom left (i+1) it slots

variable (context : Context) (size : Nat) (queries : Nat → Nat → Q)

def cleanupBatch (slots : Nat → Option (Txn Q)) : (Nat → Option (Txn Q)) × Nat := cleanupFrom size 0 0 slots

def readSnapshot (epoch : Nat) (cleaned : (Nat → Option (Txn Q)) × Nat) (i : Nat) : Option (Txn Q) :=
  if size ≤ i then none
  else
    match cleaned.1 i with
    | some txn => if cleaned.2 ≤ i then some ⟨(epoch,i),queries epoch i,i,false⟩ else some {txn with abortLock := false}
    | none => some ⟨(epoch,i),queries epoch i,i,false⟩

def abort (txn : Txn Q) : Txn Q := txn

structure Outcome where
  noRetry : Bool
  exempt : Bool
  flags : Flags
  deriving DecidableEq, Repr

def Outcome.Aborts (o : Outcome) : Prop :=
  o.noRetry = false ∧ o.exempt = false ∧ (o.flags.waw = true ∨ context.snapshotIsolation = false ∧
    if context.reorderingOptmization then o.flags.war = true ∧ o.flags.raw = true else o.flags.raw = true)

instance (o : Outcome) : Decidable (o.Aborts context) := by unfold Outcome.Aborts; infer_instance

def commitTransactions (outcomes : Nat → Outcome) (slots : Nat → Option (Txn Q)) (i : Nat) : Option (Txn Q) :=
  if (outcomes i).Aborts context then (slots i).map abort else slots i

variable (outcomes : Nat → Nat → Outcome)

def begun : Nat → (Nat → Option (Txn Q)) × Nat
  | 0 => cleanupBatch size fun _ => none
  | e+1 => cleanupBatch size (commitTransactions context (outcomes e) (readSnapshot size queries e (begun e)))

def executed (e : Nat) : Nat → Option (Txn Q) := readSnapshot size queries e (begun context size queries outcomes e)

-- Every transaction that is aborted runs again in the next epoch, once, in a slot below
-- total_abort, and no two transactions of a batch share a storage.
structure Reruns : Prop where
  again : ∀ e i txn, executed context size queries outcomes e i = some txn → (outcomes e i).Aborts context →
    ∃! j, j < (begun context size queries outcomes (e+1)).2 ∧ ∃ same, executed context size queries outcomes (e+1) j = some same ∧
      same.name = txn.name ∧ same.query = txn.query
  apart : ∀ e i j (one two : Txn Q), executed context size queries outcomes e i = some one →
    executed context size queries outcomes e j = some two → one.storage = two.storage → i = j

theorem cleanupFrom_unlocked (slots : Nat → Option (Txn Q)) (unlocked : ∀ i txn, slots i = some txn → txn.abortLock = false)
    (left i it : Nat) : cleanupFrom left i it slots = (slots,it) := by
  induction left generalizing i with
  | zero => rfl
  | succ left ih =>
    unfold cleanupFrom
    split
    · rfl
    next txn here =>
      rw [if_neg (by simp [unlocked i txn here])]
      exact ih (i+1)

theorem readSnapshot_fresh (none : cleaned.2 = 0) (e i : Nat) :
    readSnapshot size queries e cleaned i = if size ≤ i then .none else some ⟨(e,i),queries e i,i,false⟩ := by
  unfold readSnapshot
  rw [none]
  simp only [Nat.zero_le,if_true]
  split
  · rfl
  · split <;> rfl

theorem begun_none (e : Nat) : (begun context size queries outcomes e).2 = 0 := by
  induction e with
  | zero => exact congrArg Prod.snd (cleanupFrom_unlocked _ (by simp) _ _ _)
  | succ e ih =>
    refine congrArg Prod.snd (cleanupFrom_unlocked _ ?_ _ _ _)
    intro i txn here
    unfold commitTransactions abort at here
    rw [Option.map_id',ite_self,readSnapshot_fresh size queries ih] at here
    split at here <;> cases here
    rfl

theorem reruns_iff_none_aborted (context : Context) (size : Nat) (queries : Nat → Nat → Q) (outcomes : Nat → Nat → Outcome) :
    Reruns context size queries outcomes ↔ ∀ e i, i < size → ¬ (outcomes e i).Aborts context := by
  have fresh : ∀ e i, executed context size queries outcomes e i = if size ≤ i then none else some ⟨(e,i),queries e i,i,false⟩ :=
    fun e i => readSnapshot_fresh size queries (begun_none context size queries outcomes e) e i
  constructor
  · intro reruns e i inside aborts
    obtain ⟨j,⟨below,_⟩,_⟩ := reruns.again e i _ ((fresh e i).trans (if_neg (by omega))) aborts
    rw [begun_none] at below
    omega
  intro all
  refine ⟨?_,?_⟩
  · intro e i txn here aborts
    rw [fresh] at here
    split at here
    · cases here
    · exact absurd aborts (all e i (by omega))
  intro e i j one two first second same
  rw [fresh] at first second
  split at first <;> cases first
  split at second <;> cases second
  exact same

end

-- In a batch of two, the second writes what the first does.
theorem aborted_not_rerun : ¬ Reruns ⟨false,false,false⟩ 2 (fun e i => (e,i)) fun _ i => ⟨false,false,{waw := i = 1}⟩ := by
  intro reruns
  obtain ⟨_,⟨below,_⟩,_⟩ := reruns.again 0 1 _ rfl (by decide)
  rw [begun_none] at below
  omega

end DbExp.Aria.Rerun
