import Mathlib.Data.List.AList
import Mathlib.Data.List.Dedup

namespace DbExp.Calvin.ReadResults
open List

structure TxnProto (κ : Type) where
  readSet : List κ
  writeSet : List κ
  readWriteSet : List κ
  deriving DecidableEq, Repr

def TxnProto.reads (txn : TxnProto κ) : List κ := txn.readSet ++ txn.readWriteSet

section
variable {κ ι : Type} [DecidableEq κ] [DecidableEq ι] (partition : κ → ι) (txn : TxnProto κ)

-- Sequencer::RunReader collects both in sets of nodes.
def readers : List ι := (txn.reads.map partition).dedup
def writers : List ι := ((txn.writeSet ++ txn.readWriteSet).map partition).dedup

-- `objects_`, the keys a node has collected with their values; null is `none`.
abbrev Objects (κ : Type) := AList fun _ : κ => Option String

def localReads (node : ι) : List κ := txn.reads.filter fun key => partition key = node

def construct (storage : κ → Option String) (node : ι) : Objects κ :=
  if node ∈ readers partition txn then
    (localReads partition txn node).foldl (fun objects key => objects.insert key (storage key)) ∅
  else ∅

-- The READ_RESULT of a reader. It goes to all writers but the reader itself.
def readResult (storage : κ → Option String) (node : ι) : List (κ × String) :=
  (localReads partition txn node).map fun key => (key,(storage key).getD "")

def senders (node : ι) : List ι :=
  if node ∈ writers partition txn then (readers partition txn).filter (· ≠ node) else []

def handleReadResult (objects : Objects κ) (message : List (κ × String)) : Objects κ :=
  message.foldl (fun objects entry => objects.insert entry.1 (some entry.2)) objects

def readyToExecute (objects : Objects κ) : Bool := objects.keys.length = txn.readSet.length + txn.readWriteSet.length

def handled (storage : κ → Option String) (node : ι) (order : List ι) : Objects κ :=
  order.foldl (fun objects sender => handleReadResult objects (readResult partition txn storage sender))
    (construct partition txn storage node)

-- At every node that gets the transaction, for every order of the messages to it.
def AlwaysReady : Prop :=
  ∀ storage node, node ∈ readers partition txn ∨ node ∈ writers partition txn →
    ∀ order, order.Perm (senders partition txn node) →
      readyToExecute txn (handled partition txn storage node order)

variable {partition txn}

theorem mem_inserted (key : α → κ) (value : α → Option String) (xs : List α) (objects : Objects κ) :
    k ∈ xs.foldl (fun objects x => objects.insert (key x) (value x)) objects ↔ k ∈ objects ∨ ∃ x ∈ xs, key x = k := by
  induction xs generalizing objects with
  | nil => simp
  | cons x rest ih =>
    simp only [foldl_cons,ih,AList.mem_insert,mem_cons,exists_eq_or_imp,eq_comm (a := k)]
    tauto

theorem mem_construct (storage : κ → Option String) : k ∈ construct partition txn storage node ↔ k ∈ txn.reads ∧ partition k = node := by
  unfold construct localReads
  split
  · rw [mem_inserted fun key => key]
    simp
  next absent =>
    refine iff_of_false (AList.notMem_empty k) ?_
    rintro ⟨mem,rfl⟩
    exact absent (mem_dedup.mpr (mem_map_of_mem mem))

theorem mem_handled (order : List ι) : k ∈ handled partition txn storage node order ↔
    k ∈ txn.reads ∧ (partition k = node ∨ partition k ∈ order) := by
  unfold handled
  rw [and_or_left,← mem_construct storage]
  generalize construct partition txn storage node = objects
  induction order generalizing objects with
  | nil => simp
  | cons sender rest ih =>
    have told : (∃ x ∈ readResult partition txn storage sender, x.1 = k) ↔ k ∈ txn.reads ∧ partition k = sender := by
      simp [readResult,localReads]
    rw [foldl_cons,ih,handleReadResult,mem_inserted,told,mem_cons,and_or_left,or_assoc]

omit [DecidableEq κ] in
theorem length_eq_iff {seen xs : List κ} {p : κ → Prop} (distinct : seen.Nodup) (members : ∀ k, k ∈ seen ↔ k ∈ xs ∧ p k) :
    seen.length = xs.length ↔ xs.Nodup ∧ ∀ k ∈ xs, p k := by
  constructor
  · intro length
    have all : seen ~ xs := (subperm_of_subset distinct fun k mem => ((members k).mp mem).1).perm_of_length_le (le_of_eq length.symm)
    exact ⟨all.nodup_iff.mp distinct,fun k mem => ((members k).mp (all.mem_iff.mpr mem)).2⟩
  rintro ⟨once,all⟩
  refine ((perm_ext_iff_of_nodup distinct once).mpr fun k => ?_).length_eq
  rw [members]
  exact ⟨And.left,fun mem => ⟨mem,all k mem⟩⟩

theorem ready_iff (order : List ι) (all : order.Perm (senders partition txn node)) :
    readyToExecute txn (handled partition txn storage node order) ↔
      txn.reads.Nodup ∧ ∀ k ∈ txn.reads, partition k = node ∨ node ∈ writers partition txn := by
  rw [readyToExecute,decide_eq_true_iff,← length_append]
  refine length_eq_iff (AList.keys_nodup _) fun k => ?_
  rw [← AList.mem_keys,mem_handled,all.mem_iff,senders]
  refine and_congr_right fun mem => ?_
  have known : partition k ∈ readers partition txn := mem_dedup.mpr (mem_map_of_mem mem)
  split
  next writes => simp [known,writes,em]
  next reads => simp [reads]

theorem always_ready_iff (partition : κ → ι) (txn : TxnProto κ) : AlwaysReady partition txn ↔
    txn.reads.Nodup ∧ ∀ node ∈ readers partition txn, node ∉ writers partition txn →
      ∀ k ∈ txn.reads, partition k = node := by
  constructor
  · intro ready
    have spot (node) (reads : node ∈ readers partition txn) :=
      (ready_iff _ (.refl _)).mp (ready (fun _ => none) node (.inl reads) _ (.refl _))
    refine ⟨?_,fun node reads writes k mem => ((spot node reads).2 k mem).resolve_right writes⟩
    cases empty : txn.reads with
    | nil => exact nodup_nil
    | cons k rest => exact empty ▸ (spot (partition k) (mem_dedup.mpr (mem_map_of_mem (by simp [empty])))).1
  rintro ⟨once,alone⟩ _ node takes order all
  refine (ready_iff order all).mpr ⟨once,fun k mem => ?_⟩
  by_cases writes : node ∈ writers partition txn
  · exact .inr writes
  · exact .inl (alone node (takes.resolve_right writes) writes k mem)

end

-- One node of two that both only read, and a key that is read and written.
theorem never_ready : ¬ AlwaysReady (fun k => k % 2) ⟨[0,1],[],[]⟩ ∧ ¬ AlwaysReady (fun k => k % 2) ⟨[0],[],[0]⟩ := by
  constructor <;>
  · intro ready
    have := ready (fun _ => none) 0 (by decide) _ (.refl _)
    revert this
    decide

end DbExp.Calvin.ReadResults
