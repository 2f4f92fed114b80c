import DbExp.Calvin.LockOrder
import Mathlib.Data.List.TakeWhile

namespace DbExp.Calvin
open Function List
open LockLine

section
variable {κ τ : Type} [DecidableEq κ] [DecidableEq τ] {env : Env κ τ} {m : LockManager κ τ} {t : τ}

-- Once it is asked for, the request of `t` is the last of its line and keeps further
-- occurrences of the key out.
theorem requestLock_repeated {base : κ → List (LockRequest τ)} (fresh : ∀ k, ∀ r ∈ base k, r.txn ≠ t)
    (asked : κ → Option (LockRequest τ)) (mine : ∀ k, ∀ r ∈ asked k, r.txn = t) (mode : Mode) (fails : List (LockRequest τ) → Bool)
    (keys : List κ) {acc : (Nat → Bucket κ τ) × Int} (queues : ∀ k, queue env acc.1 k = base k ++ (asked k).toList) (k : κ) :
    queue env (keys.foldl (requestLock env mode fails t) acc).1 k =
      base k ++ ((asked k).or (if k ∈ keys.filter env.isLocal then some ⟨mode,t⟩ else none)).toList := by
  induction keys generalizing acc asked with
  | nil => simpa using queues k
  | cons key rest ih =>
    rw [foldl_cons]
    by_cases here : env.isLocal key
    · have line := queues key
      cases old : asked key with
      | some r =>
        have last : ¬ (queue env acc.1 key).getLast?.map Request.txn ≠ some t := by simp [line,old,mine key r old]
        have round : requestLock env mode fails t acc key = acc := by
          unfold requestLock
          rw [if_pos here]
          exact if_neg last
        rw [round,ih asked mine queues]
        by_cases same : k = key
        · simp [same,old]
        · simp [here,same]
      | none =>
        have foreign : ∀ r ∈ queue env acc.1 key, r.txn ≠ t := by simpa [line,old] using fresh key
        have round := requestLock_new mode fails here foreign
        rw [ih (update asked key (some ⟨mode,t⟩)) ?_ ?_]
        · by_cases same : k = key
          · subst same; simp [old,here]
          · simp [here,same]
        · exact (forall_update_iff asked fun _ r => ∀ x ∈ r, x.txn = t).mpr ⟨by simp,fun k _ => mine k⟩
        intro x
        rw [round,queue_storeAt]
        by_cases same : x = key
        · subst same; simp [line,old]
        · simp [same,queues]
    · rw [show requestLock env mode fails t acc key = acc from if_neg here,ih asked mine queues,filter_cons_of_neg here]

theorem lock_records (fresh : ∀ k, ∀ r ∈ queue env m.lockTable k, r.txn ≠ t) (k : κ) :
    queue env (lock env m t).lockTable k = queue env m.lockTable k ++ (requestOf env k t).toList := by
  have table : (lock env m t).lockTable = (requestAll env t m.lockTable).1 := by
    simp only [lock]
    split <;> rfl
  rw [table,requestAll,requestRead,requestLock_repeated fresh (fun k =>
    if k ∈ (env.proto t).readWriteSet.filter env.isLocal then some ⟨.write,t⟩ else none) (by simp)]
  · unfold requestOf localKeys
    by_cases here : env.isLocal k
    · by_cases written : k ∈ (env.proto t).readWriteSet <;> simp [here,written]
    · simp [here]
  intro x
  rw [requestWrite,requestLock_repeated fresh (fun _ => none) (by simp)]
  · rfl
  · simp

def AtMostOnce (t : τ) (line : List (LockRequest τ)) : Prop := (line.countP fun r => r.txn = t) ≤ 1

theorem releaseKey_spec (filled : Filled env m.lockTable) (once : AtMostOnce t (queue env m.lockTable key))
    (there : queue env m.lockTable key ≠ []) : ∃ n, releaseKey env t m key = some n ∧ Filled env n.lockTable ∧
      queue env n.lockTable = without (queue env m.lockTable) t key := by
  by_cases asked : ∃ r ∈ queue env m.lockTable key, r.txn = t
  · obtain ⟨_,_,_,_,_,_,done,full,left,_⟩ := releaseKey_asked filled asked once
    exact ⟨_,done,full,left⟩
  have foreign : ∀ r ∈ queue env m.lockTable key, r.txn ≠ t := fun r mem same => asked ⟨r,mem,same⟩
  unfold releaseKey without
  rw [requestsAt_filled filled,if_neg there]
  dsimp only
  rw [dropWhile_eq_nil_iff.mpr (by simpa using foreign),filter_eq_self.mpr (by simpa using foreign),update_eq_self]
  exact ⟨m,rfl,filled,rfl⟩

def others (env : Env κ τ) (m : LockManager κ τ) (t : τ) (k : κ) : List (LockRequest τ) :=
  (queue env m.lockTable k).filter fun r => r.txn ≠ t

theorem releaseKeys_spec (keys : List κ) (filled : Filled env m.lockTable) (once : ∀ k, AtMostOnce t (queue env m.lockTable k)) :
    ((keys.foldlM (releaseKey env t) m).isSome ↔
      ∀ k ∈ keys, queue env m.lockTable k ≠ [] ∧ (keys.Duplicate k → others env m t k ≠ [])) ∧
    ∀ n, keys.foldlM (releaseKey env t) m = some n →
      ∀ k, queue env n.lockTable k = if k ∈ keys then others env m t k else queue env m.lockTable k := by
  induction keys generalizing m with
  | nil => simp
  | cons key rest ih =>
    rw [foldlM_cons]
    by_cases there : queue env m.lockTable key = []
    · have missing : releaseKey env t m key = none := by rw [releaseKey,requestsAt_filled filled,if_pos there]
      simp [missing,there]
    obtain ⟨n,done,full,left⟩ := releaseKey_spec filled (once key) there
    have here : queue env n.lockTable key = others env m t key := by rw [left,without,update_self,others]
    have apart (k) (other : k ≠ key) : queue env n.lockTable k = queue env m.lockTable k := by rw [left,without,update_of_ne other]
    have same (k) : others env n t k = others env m t k := by
      by_cases mine : k = key
      · rw [mine,others,here,others,filter_filter]
        simp
      · rw [others,apart k mine,others]
    obtain ⟨safe,effect⟩ := ih full fun k => (by
      by_cases mine : k = key
      · rw [mine,here]
        exact (filter_sublist.countP_le).trans (once key)
      · rw [apart k mine]
        exact once k : AtMostOnce t (queue env n.lockTable k))
    rw [done]
    refine ⟨safe.trans ⟨fun all k mem => ?_,fun all k mem => ?_⟩,fun last path k => ?_⟩
    · by_cases mine : k = key
      · subst mine
        refine ⟨there,fun twice => here ▸ (all k ?_).1⟩
        exact (duplicate_cons_iff.mp twice).elim (·.2) List.Duplicate.mem
      · have := all k ((mem_cons.mp mem).resolve_left mine)
        rw [apart k mine,same] at this
        exact ⟨this.1,fun twice => this.2 (twice.of_duplicate_cons mine)⟩
    · have before := all k (.tail _ mem)
      rw [same]
      by_cases mine : k = key
      · subst mine
        have more := before.2 (duplicate_cons_iff.mpr (.inl ⟨rfl,mem⟩))
        exact ⟨here ▸ more,fun _ => more⟩
      · rw [apart k mine]
        exact ⟨before.1,fun twice => before.2 (twice.duplicate_cons key)⟩
    rw [effect last path,same]
    by_cases mine : k = key
    · subst mine; simp [here]
    · simp [mine,apart k mine]

section
variable (env : Env κ τ) (m : LockManager κ τ) (t : τ)

def Holds : Prop :=
  ∀ k, (queue env m.lockTable k).filter (fun r => r.txn = t) = (requestOf env k t).toList

def Records : Prop :=
  ∀ k, queue env (lock env m t).lockTable k = queue env m.lockTable k ++ (requestOf env k t).toList

def Releases : Prop :=
  ∃ n, release env m t = some n ∧ ∀ k, queue env n.lockTable k = others env m t k

end

theorem repeated_keys (env : Env κ τ) (m : LockManager κ τ) (t : τ) :
    ((∀ k, ∀ r ∈ queue env m.lockTable k, r.txn ≠ t) → Records env m t ∧ Holds env (lock env m t) t) ∧
    (Filled env m.lockTable → Holds env m t →
      (Releases env m t ↔ ∀ k, (localKeys env t).Duplicate k → others env m t k ≠ [])) := by
  refine ⟨fun fresh => ⟨lock_records fresh,fun k => ?_⟩,fun filled holds => ?_⟩
  · rw [lock_records fresh,filter_append,filter_eq_nil_iff.mpr (by simpa using fresh k),nil_append]
    cases asked : requestOf env k t with
    | none => rfl
    | some r => simp [(requestOf_txn asked).1]
  have once (k) : AtMostOnce t (queue env m.lockTable k) := by
    rw [AtMostOnce,countP_eq_length_filter,holds]
    cases requestOf env k t <;> simp
  have there (k) (mem : k ∈ localKeys env t) : queue env m.lockTable k ≠ [] := by
    intro none
    have := holds k
    simp [none,requestOf,mem] at this
  have rest (k) (absent : k ∉ localKeys env t) : queue env m.lockTable k = others env m t k := by
    have := holds k
    rw [requestOf,if_neg absent] at this
    exact (filter_eq_self.mpr (by simpa using this)).symm
  obtain ⟨safe,effect⟩ := releaseKeys_spec (localKeys env t) filled once
  constructor
  · rintro ⟨n,done,_⟩ k twice
    exact (safe.mp (Option.isSome_iff_exists.mpr ⟨n,done⟩) k twice.mem).2 twice
  intro spared
  obtain ⟨n,done⟩ := Option.isSome_iff_exists.mp (safe.mpr fun k mem => ⟨there k mem,spared k⟩)
  refine ⟨n,done,fun k => (effect n done k).trans ?_⟩
  split
  · rfl
  next absent => exact rest k absent

-- The first release of the key erases its list and the second looks it up.
theorem key_released_twice : ∃ m, m = lock (⟨id,fun _ => true,fun _ => ⟨[7],[7]⟩⟩ : Env Nat Nat) ⟨fun _ => .empty,fun _ => none,[]⟩ 1 ∧
    m.readyTxns = [1] ∧ release ⟨id,fun _ => true,fun _ => ⟨[7],[7]⟩⟩ m 1 = none := ⟨_,rfl,rfl,rfl⟩

end
end DbExp.Calvin
