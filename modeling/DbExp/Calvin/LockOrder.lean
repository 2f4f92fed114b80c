import DbExp.Calvin.LockManager

namespace DbExp.Calvin
open Function
set_option linter.unusedSectionVars false
open LockLine
open List
open Request (txn)

section
variable {κ τ : Type} [DecidableEq κ] {env : Env κ τ} {m : LockManager κ τ} {t : τ}

def queue (env : Env κ τ) (table : Nat → Bucket κ τ) (k : κ) : List (LockRequest τ) := (requestsAt env table k).getD []

theorem queue_storeAt (table : Nat → Bucket κ τ) (key : κ) (requests : List (LockRequest τ)) :
    queue env (storeAt env table key requests) = update (queue env table) key requests := by
  funext k
  unfold queue
  rw [requestsAt_storeAt]
  by_cases same : k = key
  · subst same; simp
  · simp [same]

theorem queue_eraseAt (table : Nat → Bucket κ τ) (key : κ) :
    queue env (eraseAt env table key) = update (queue env table) key [] := by
  funext k
  unfold queue
  rw [requestsAt_eraseAt]
  by_cases same : k = key
  · subst same; simp
  · simp [same]

def Filled (env : Env κ τ) (table : Nat → Bucket κ τ) : Prop :=
  ∀ h k requests, (table h).find k = some requests → env.hash k = h ∧ requests ≠ []

theorem requestsAt_filled (filled : Filled env table) : requestsAt env table key =
    if queue env table key = [] then none else some (queue env table key) := by
  unfold queue
  cases got : requestsAt env table key with
  | none => rfl
  | some requests => exact (if_neg (filled _ key requests got).2).symm

theorem storeAt_filled (filled : Filled env table) (some : requests ≠ []) : Filled env (storeAt env table key requests) := by
  intro h k got here
  unfold storeAt at here
  by_cases slot : h = env.hash key
  · subst slot
    rw [update_self,Bucket.find_put] at here
    split at here
    next same =>
      cases here
      exact ⟨by rw [same],some⟩
    · exact filled _ k got here
  · rw [update_of_ne slot] at here
    exact filled h k got here

theorem eraseAt_filled (filled : Filled env table) : Filled env (eraseAt env table key) := by
  intro h k got here
  unfold eraseAt at here
  by_cases slot : h = env.hash key
  · subst slot
    rw [update_self,Bucket.find_remove] at here
    split at here
    · cases here
    · exact filled _ k got here
  · rw [update_of_ne slot] at here
    exact filled h k got here

theorem filled_queue (filled : Filled env table) (some : (table h).lists ≠ []) : ∃ k, queue env table k ≠ [] := by
  by_contra none
  push Not at none
  refine some (Bucket.lists_nil _ ?_)
  intro k
  cases got : (table h).find k with
  | none => rfl
  | some requests =>
    obtain ⟨rfl,full⟩ := filled h k requests got
    have empty := none k
    unfold queue requestsAt at empty
    rw [got] at empty
    exact absurd empty full

variable {front rest : List (LockRequest τ)} {target : LockRequest τ}

-- Cases (a) and (b) of the source grant exactly the requests that only the released
-- one was blocking. Case (c) is for a request that was itself still blocked.
theorem mem_newOwners (distinct : Distinct (front ++ target :: rest))
    (free : ¬ Blocked (front ++ target :: rest) target.txn) (u : τ) (other : target.txn ≠ u) :
    u ∈ newOwners front target rest ↔
      Blocked (front ++ target :: rest) u ∧ ¬ Blocked (front ++ rest) u := by
  rw [blocked_without free other]
  have gone : (Blocked (front ++ rest) u ∨ ∃ y ∈ rest, y.txn = u ∧ Clash target.mode y.mode) ∧ ¬ Blocked (front ++ rest) u ↔
      (∃ y ∈ rest, y.txn = u ∧ Clash target.mode y.mode) ∧ ¬ Blocked (front ++ rest) u := by tauto
  rw [gone]
  cases front with
  | nil =>
    simp only [nil_append] at distinct ⊢
    have inner : Distinct rest := (nodup_cons.mp distinct).2
    cases rest with
    | nil => simp [newOwners]
    | cons next more =>
      have held := mem_holders (t := u) inner
      cases kind : target.mode with
      | write =>
        have same : newOwners [] target (next :: more) = holders (next :: more) := by
          unfold newOwners holders
          cases step : next.mode <;> simp [kind,step]
        rw [same,held]
        simp [Clash]
      | read =>
        cases step : next.mode with
        | write =>
          have same : newOwners [] target (next :: more) = holders (next :: more) := by
            unfold newOwners holders
            simp [kind,step]
          rw [same,held]
          constructor
          · rintro ⟨mem,unblocked⟩
            refine ⟨?_,unblocked⟩
            have first : u ∈ holders (next :: more) := held.mpr ⟨mem,unblocked⟩
            simp only [holders,step,if_true,mem_singleton] at first
            exact ⟨next,by simp,first.symm,.inr step⟩
          · rintro ⟨⟨y,mem,same,_⟩,unblocked⟩
            exact ⟨⟨y,mem,same⟩,unblocked⟩
        | read =>
          have none : newOwners [] target (next :: more) = [] := by
            unfold newOwners
            simp [kind,step]
          rw [none]
          constructor
          · intro mem; cases mem
          rintro ⟨⟨y,mem,rfl,clash⟩,unblocked⟩
          have writes : y.mode = .write := by
            rcases clash with one | two
            · cases one
            · exact two
          rcases mem_cons.mp mem with rfl | later
          · rw [step] at writes; cases writes
          · exact absurd ⟨next,y,pair_cons.mpr (.inl ⟨rfl,later⟩),rfl,.inr writes⟩ unblocked
  | cons first more =>
    have ahead : [first,target] <+ (first :: more) ++ target :: rest :=
      pair_append.mpr (.inr (.inl ⟨by simp,by simp⟩))
    have reads : target.mode = .read := by
      cases kind : target.mode with
      | read => rfl
      | write => exact absurd ⟨first,target,ahead,rfl,.inr kind⟩ free
    have none : newOwners (first :: more) target rest = [] := by
      unfold newOwners
      cases rest <;> simp [reads]
    rw [none]
    constructor
    · intro mem; cases mem
    rintro ⟨⟨y,mem,rfl,clash⟩,unblocked⟩
    rw [reads] at clash
    refine absurd ⟨first,y,pair_append.mpr (.inr (.inl ⟨by simp,mem⟩)),rfl,?_⟩ unblocked
    exact .inr (clash.resolve_left (by simp))

theorem newOwners_nodup (distinct : Distinct rest) :
    (newOwners front target rest).Nodup := by
  unfold newOwners
  have leading : ((rest.takeWhile fun r => r.mode = .read).map txn).Nodup :=
    distinct.sublist ((takeWhile_sublist _).map _)
  split
  · exact nodup_nil
  rename_i next more
  split
  · cases step : next.mode with
    | read => simpa [step] using leading
    | write => simp [step]
  · split
    · exact leading
    · exact nodup_nil

variable [DecidableEq τ]

theorem requestLock_new {acc : (Nat → Bucket κ τ) × Int} (mode : Mode) (fails : List (LockRequest τ) → Bool)
    (mine : env.isLocal key) (fresh : ∀ r ∈ queue env acc.1 key, r.txn ≠ t) : requestLock env mode fails t acc key =
      (storeAt env acc.1 key (queue env acc.1 key ++ [⟨mode,t⟩]),
        if fails (queue env acc.1 key ++ [⟨mode,t⟩]) then acc.2 + 1 else acc.2) := by
  have last : (queue env acc.1 key).getLast?.map txn ≠ some t := by
    intro same
    obtain ⟨r,here,same⟩ := Option.map_eq_some_iff.mp same
    exact fresh r (mem_of_getLast? here) same
  unfold requestLock
  rw [if_pos mine]
  exact if_pos last

theorem requestLock_foldl (mode : Mode) (fails : List (LockRequest τ) → Bool) (keys : List κ)
    (distinct : (keys.filter env.isLocal).Nodup) (acc : (Nat → Bucket κ τ) × Int)
    (fresh : ∀ k ∈ keys.filter env.isLocal, ∀ r ∈ queue env acc.1 k, r.txn ≠ t) (filled : Filled env acc.1) :
    (keys.foldl (requestLock env mode fails t) acc).2 =
        acc.2 + (keys.filter env.isLocal).countP (fun k => fails (queue env acc.1 k ++ [⟨mode,t⟩])) ∧
      (∀ k, queue env (keys.foldl (requestLock env mode fails t) acc).1 k =
        if k ∈ keys.filter env.isLocal then queue env acc.1 k ++ [⟨mode,t⟩] else queue env acc.1 k) ∧
      Filled env (keys.foldl (requestLock env mode fails t) acc).1 := by
  induction keys generalizing acc with
  | nil => simp [filled]
  | cons key rest ih =>
    by_cases mine : env.isLocal key
    · rw [filter_cons_of_pos mine] at distinct fresh ⊢
      obtain ⟨once,distinct⟩ := nodup_cons.mp distinct
      have round := requestLock_new mode fails mine (fresh key (by simp))
      have others : ∀ k ∈ rest.filter env.isLocal,
          queue env (requestLock env mode fails t acc key).1 k = queue env acc.1 k := by
        intro k mem
        rw [round,queue_storeAt,update_of_ne (by rintro rfl; exact once mem)]
      rw [foldl_cons]
      obtain ⟨count,queues,full⟩ := ih distinct (requestLock env mode fails t acc key)
        (by
          intro k mem
          rw [others k mem]
          exact fresh k (.tail _ mem))
        (by rw [round]; exact storeAt_filled filled (by simp))
      refine ⟨?_,?_,full⟩
      · rw [count,countP_cons,countP_congr (fun k mem => by rw [others k mem]),round]
        split <;> push_cast <;> omega
      intro k
      rw [queues k]
      by_cases later : k ∈ rest.filter env.isLocal
      · rw [if_pos later,if_pos (.tail _ later),others k later]
      rw [if_neg later,round,queue_storeAt]
      by_cases same : k = key
      · subst same; simp
      · rw [update_of_ne same,if_neg (by simp [same,later])]
    rw [filter_cons_of_neg mine] at distinct fresh ⊢
    have round : requestLock env mode fails t acc key = acc := if_neg mine
    rw [foldl_cons,round]
    exact ih distinct acc fresh filled

theorem grant_foldl (owners : List τ) (distinct : owners.Nodup) (m : LockManager κ τ) :
    (owners.foldl grant m).lockTable = m.lockTable ∧
    (owners.foldl grant m).readyTxns = m.readyTxns ++ owners.filter (fun u => (m.txnWaits u).getD 0 = 1) ∧
    ∀ u, (owners.foldl grant m).txnWaits u =
      if u ∈ owners then (if (m.txnWaits u).getD 0 = 1 then none else some ((m.txnWaits u).getD 0 - 1)) else m.txnWaits u := by
  induction owners generalizing m with
  | nil => simp
  | cons x rest ih =>
    obtain ⟨fresh,distinct⟩ := nodup_cons.mp distinct
    obtain ⟨table,ready,waits⟩ := ih distinct (grant m x)
    have step : (grant m x).lockTable = m.lockTable ∧
        (grant m x).readyTxns = m.readyTxns ++ [x].filter (fun u => (m.txnWaits u).getD 0 = 1) ∧
        (grant m x).txnWaits = update m.txnWaits x
          (if (m.txnWaits x).getD 0 = 1 then none else some ((m.txnWaits x).getD 0 - 1)) := by
      unfold grant
      by_cases last : (m.txnWaits x).getD 0 = 1
      · simp [last]
      · have more : ¬ (m.txnWaits x).getD 0 - 1 = 0 := by omega
        simp [last,more]
    have others : ∀ u ∈ rest, (grant m x).txnWaits u = m.txnWaits u := by
      intro u mem
      rw [step.2.2,update_of_ne (by rintro rfl; exact fresh mem)]
    rw [foldl_cons]
    refine ⟨table.trans step.1,?_,?_⟩
    · have same : rest.filter (fun u => ((grant m x).txnWaits u).getD 0 = 1) =
          rest.filter (fun u => (m.txnWaits u).getD 0 = 1) := filter_congr fun u mem => by rw [others u mem]
      rw [ready,same,step.2.1,append_assoc,← filter_append]
      rfl
    intro u
    rw [waits u]
    by_cases later : u ∈ rest
    · rw [if_pos later,if_pos (mem_cons_of_mem _ later),others u later]
    rw [if_neg later,step.2.2]
    by_cases same : u = x
    · subst same; simp
    · rw [update_of_ne same,if_neg (by simp [same,later])]

open Classical in
noncomputable def waiting (env : Env κ τ) (lines : κ → List (LockRequest τ)) (t : τ) : Nat :=
  (localKeys env t).countP fun k => Blocked (lines k) t

theorem waiting_zero {lines : κ → List (LockRequest τ)} :
    waiting env lines t = 0 ↔ ∀ k ∈ localKeys env t, ¬ Blocked (lines k) t := by
  unfold waiting
  rw [countP_eq_zero]
  simp

theorem waiting_congr {lines other : κ → List (LockRequest τ)}
    (same : ∀ k ∈ localKeys env t, Blocked (lines k) t ↔ Blocked (other k) t) : waiting env lines t = waiting env other t := by
  unfold waiting
  apply countP_congr
  intro k mem
  simpa using same k mem

theorem waiting_one_less {lines other : κ → List (LockRequest τ)} (distinct : (localKeys env t).Nodup)
    (mine : key ∈ localKeys env t) (before : Blocked (lines key) t) (after : ¬ Blocked (other key) t)
    (same : ∀ k, k ≠ key → lines k = other k) : waiting env lines t = waiting env other t + 1 := by
  unfold waiting
  have split := perm_cons_erase mine
  have others : ∀ k ∈ (localKeys env t).erase key, lines k = other k := by
    intro k mem
    exact same k (distinct.mem_erase_iff.mp mem).1
  rw [split.countP_eq,split.countP_eq,countP_cons,countP_cons]
  simp only [before,after,decide_true,decide_false,if_true]
  rw [countP_congr (fun k mem => by rw [others k mem])]
  simp

-- What holds of the lock manager when `lines` are its queues: who waits, for how
-- many locks, and who has been put in `readyTxns` (once, and is in `readied`).
structure Counts (env : Env κ τ) (locked started : List τ) (lines : κ → List (LockRequest τ)) (m : LockManager κ τ) : Prop where
  filled : Filled env m.lockTable
  queues : queue env m.lockTable = lines
  waits : ∀ t, m.txnWaits t = if waiting env lines t = 0 then none else some (waiting env lines t : Int)
  ready : ∀ t, (started ++ m.readyTxns).count t = if t ∈ locked ∧ waiting env lines t = 0 then 1 else 0

structure Lines (env : Env κ τ) (locked : List τ) (lines : κ → List (LockRequest τ)) : Prop where
  distinct : ∀ k, Distinct (lines k)
  asked : ∀ k, ∀ r ∈ lines k, k ∈ localKeys env r.txn ∧ r.txn ∈ locked
  named : ∀ t ∈ locked, (localKeys env t).Nodup

def without (lines : κ → List (LockRequest τ)) (t : τ) (key : κ) : κ → List (LockRequest τ) :=
  update lines key ((lines key).filter fun r => r.txn ≠ t)

theorem Lines.without (sound : Lines env locked lines) : Lines env locked (without lines t key) := by
  have inside : ∀ k, Calvin.without lines t key k <+ lines k := by
    intro k
    unfold Calvin.without
    by_cases same : k = key
    · subst same; rw [update_self]; exact filter_sublist
    · rw [update_of_ne same]
  refine ⟨?_,?_,sound.named⟩
  · intro k
    exact (sound.distinct k).sublist ((inside k).map _)
  · intro k r mem
    exact sound.asked k r ((inside k).subset mem)

theorem newOwners_follow (mem : u ∈ newOwners front target rest) :
    ∃ r ∈ rest, r.txn = u := by
  have leading : u ∈ (rest.takeWhile fun r => r.mode = .read).map txn → ∃ r ∈ rest, r.txn = u := by
    intro mem
    obtain ⟨r,here,same⟩ := mem_map.mp mem
    exact ⟨r,(takeWhile_sublist _).subset here,same⟩
  unfold newOwners at mem
  split at mem
  · cases mem
  rename_i next more
  split at mem
  · rcases mem_append.mp mem with first | later
    · split at first
      · exact ⟨next,by simp,(mem_singleton.mp first).symm⟩
      · cases first
    · exact leading later
  · split at mem
    · exact leading mem
    · cases mem

theorem release_waiting (sound : Lines env locked lines)
    (line : lines key = front ++ target :: rest) (free : ¬ Blocked (lines key) target.txn)
    (after : without lines target.txn key key = front ++ rest) (u : τ) :
    u ∈ newOwners front target rest ∧ u ∈ locked ∧ waiting env lines u = waiting env (without lines target.txn key) u + 1 ∨
    u ∉ newOwners front target rest ∧ waiting env lines u = waiting env (without lines target.txn key) u := by
  have distinct := sound.distinct key
  have elsewhere : ∀ k, k ≠ key → lines k = without lines target.txn key k := by
    intro k other
    exact (update_of_ne other _ _).symm
  rw [line] at free distinct
  by_cases same : target.txn = u
  · subst same
    refine .inr ⟨?_,waiting_congr ?_⟩
    · intro mem
      obtain ⟨r,later,equal⟩ := newOwners_follow mem
      have tail := distinct.sublist ((sublist_append_right front _).map txn)
      exact (nodup_cons.mp tail).1 (mem_map.mpr ⟨r,later,equal⟩)
    intro k _
    by_cases here : k = key
    · subst here
      rw [line]
      refine iff_of_false free ?_
      intro blocked
      obtain ⟨r,mem,equal⟩ := blocked.mem
      simp only [without,update_self,mem_filter] at mem
      simp [equal] at mem
    · rw [elsewhere k here]
  have owners := mem_newOwners distinct free u same
  by_cases owner : u ∈ newOwners front target rest
  · obtain ⟨before,gone⟩ := owners.mp owner
    obtain ⟨r,mem,rfl⟩ := before.mem
    obtain ⟨mine,known⟩ := sound.asked key r (line ▸ mem)
    exact .inl ⟨owner,known,waiting_one_less (sound.named _ known) mine (line ▸ before) (after ▸ gone) elsewhere⟩
  refine .inr ⟨owner,waiting_congr ?_⟩
  intro k _
  by_cases here : k = key
  · subst here
    rw [line,after]
    refine ⟨fun blocked => by_contra fun gone => owner (owners.mpr ⟨blocked,gone⟩),?_⟩
    intro blocked
    exact (blocked_without free same).mpr (.inl blocked)
  · rw [elsewhere k here]

theorem split_at_first (mem : ∃ r ∈ requests, r.txn = t) :
    ∃ (front : List (LockRequest τ)) (target : LockRequest τ) (rest : List (LockRequest τ)),
      requests = front ++ target :: rest ∧ target.txn = t ∧
      requests.takeWhile (fun r => r.txn ≠ t) = front ∧ requests.dropWhile (fun r => r.txn ≠ t) = target :: rest := by
  induction requests with
  | nil => simp at mem
  | cons x more ih =>
    by_cases here : x.txn = t
    · exact ⟨[],x,more,rfl,here,by simp [here],by simp [here]⟩
    · have later : ∃ r ∈ more, r.txn = t := by simpa [here] using mem
      obtain ⟨front,target,rest,rfl,same,taken,left⟩ := ih later
      exact ⟨x :: front,target,rest,rfl,same,by simpa [here] using taken,by simpa [here] using left⟩

theorem filter_split (same : target.txn = t)
    (once : ((front ++ target :: rest).countP fun r => r.txn = t) ≤ 1) :
    ((front ++ target :: rest).filter fun r => r.txn ≠ t) = front ++ rest := by
  rw [countP_append,countP_cons_of_pos (by simpa using same)] at once
  have before : front.countP (fun r => r.txn = t) = 0 := by omega
  have after : rest.countP (fun r => r.txn = t) = 0 := by omega
  rw [countP_eq_zero] at before after
  rw [filter_append,filter_cons_of_neg (by simpa using same),filter_eq_self.mpr (by simpa using before),
    filter_eq_self.mpr (by simpa using after)]

theorem releaseKey_asked (filled : Filled env m.lockTable) (mem : ∃ r ∈ queue env m.lockTable key, r.txn = t)
    (once : ((queue env m.lockTable key).countP fun r => r.txn = t) ≤ 1) : ∃ front target rest table,
      queue env m.lockTable key = front ++ target :: rest ∧ target.txn = t ∧
      releaseKey env t m key = some {(newOwners front target rest).foldl grant m with lockTable := table} ∧
      Filled env table ∧ queue env table = without (queue env m.lockTable) t key ∧
      without (queue env m.lockTable) t key key = front ++ rest := by
  obtain ⟨front,target,rest,whole,same,taken,left⟩ := split_at_first mem
  have after : without (queue env m.lockTable) t key key = front ++ rest := by
    rw [without,update_self,whole]
    exact filter_split same (whole ▸ once)
  have shape : without (queue env m.lockTable) t key = update (queue env m.lockTable) key (front ++ rest) := by
    rw [← after]; simp [without]
  refine ⟨front,target,rest,if front ++ rest = [] then eraseAt env m.lockTable key else storeAt env m.lockTable key (front ++ rest),
    whole,same,?_,?_,?_,after⟩
  · unfold releaseKey
    rw [requestsAt_filled filled,if_neg (by simp [whole])]
    dsimp only
    rw [left,taken]
  · split
    · exact eraseAt_filled filled
    next more => exact storeAt_filled filled more
  rw [shape]
  split
  next none => rw [queue_eraseAt,none]
  · exact queue_storeAt ..

theorem releaseKey_counts (counts : Counts env locked started lines m) (sound : Lines env locked lines)
    (mem : ∃ r ∈ lines key, r.txn = t) (free : ¬ Blocked (lines key) t) :
    ∃ n, releaseKey env t m key = some n ∧ Counts env locked started (without lines t key) n ∧
      ∃ more, n.readyTxns = m.readyTxns ++ more := by
  have distinct := sound.distinct key
  obtain ⟨front,target,rest,_,line,rfl,done,filled,queues,after⟩ := releaseKey_asked counts.filled
    (counts.queues.symm ▸ mem) (by
      have := nodup_iff_count_le_one.mp distinct t
      rwa [List.count,countP_map,← counts.queues] at this)
  rw [counts.queues] at line queues after
  rw [line] at distinct
  have inner : Distinct rest :=
    distinct.sublist (((sublist_cons_self _ _).trans (sublist_append_right front _)).map txn)
  have moved := release_waiting sound line free after
  obtain ⟨_,ready,waits⟩ := grant_foldl (newOwners front target rest) (newOwners_nodup inner) m
  refine ⟨_,done,⟨filled,queues,?_,?_⟩,_,ready⟩
  · intro u
    rw [waits u,counts.waits u]
    rcases moved u with ⟨owner,_,less⟩ | ⟨other,same⟩
    · have some : ¬ waiting env lines u = 0 := by omega
      rw [if_pos owner,if_neg some,less]
      by_cases last : waiting env (without lines target.txn key) u = 0
      · simp [last]
      · simp [last]
    · rw [if_neg other,same]
  intro u
  rw [ready,← append_assoc,count_append,counts.ready u]
  rcases moved u with ⟨owner,known,less⟩ | ⟨other,same⟩
  · have old : (m.txnWaits u).getD 0 = (waiting env (without lines target.txn key) u : Int) + 1 := by
      rw [counts.waits u,if_neg (by omega),less]; simp
    by_cases last : waiting env (without lines target.txn key) u = 0
    · have picked : u ∈ (newOwners front target rest).filter (fun u => (m.txnWaits u).getD 0 = 1) := by
        simp [owner,old,last]
      rw [count_eq_one_of_mem ((newOwners_nodup inner).filter _) picked]
      simp [less,known,last]
    have skipped : u ∉ (newOwners front target rest).filter (fun u => (m.txnWaits u).getD 0 = 1) := by
      simp [old,last]
    rw [count_eq_zero_of_not_mem skipped]
    simp [less,last]
  have skipped : u ∉ (newOwners front target rest).filter (fun u => (m.txnWaits u).getD 0 = 1) := by
    simp [other]
  rw [count_eq_zero_of_not_mem skipped,same]
  simp

theorem releaseKeys_counts (keys : List κ) (once : keys.Nodup) (counts : Counts env locked started lines m)
    (sound : Lines env locked lines) (held : ∀ k ∈ keys, (∃ r ∈ lines k, r.txn = t) ∧ ¬ Blocked (lines k) t) :
    ∃ n, keys.foldlM (releaseKey env t) m = some n ∧
      Counts env locked started (fun k => if k ∈ keys then (lines k).filter (fun r => r.txn ≠ t) else lines k) n ∧
      ∃ more, n.readyTxns = m.readyTxns ++ more := by
  induction keys generalizing lines m with
  | nil => exact ⟨m,rfl,by simpa using counts,[],by simp⟩
  | cons key rest ih =>
    obtain ⟨fresh,once⟩ := nodup_cons.mp once
    obtain ⟨mem,free⟩ := held key (by simp)
    obtain ⟨n,done,counts,some,ready⟩ := releaseKey_counts counts sound mem free
    have elsewhere : ∀ k, k ≠ key → without lines t key k = lines k := fun k other => update_of_ne other _ _
    obtain ⟨last,path,counts,more,readied⟩ := ih once counts sound.without (by
      intro k later
      rw [elsewhere k (by rintro rfl; exact fresh later)]
      exact held k (.tail _ later))
    refine ⟨last,by rw [foldlM_cons,done]; exact path,?_,some ++ more,by rw [readied,ready,append_assoc]⟩
    convert counts using 1
    funext k
    by_cases here : k = key
    · subst here
      rw [if_pos (by simp),if_neg fresh,without,update_self]
    · rw [elsewhere k here]
      simp [here]

-- What a transaction asks of a key, and the line for it among the transactions that
-- are locked and not released.
def requestOf (env : Env κ τ) (k : κ) (t : τ) : Option (LockRequest τ) :=
  if k ∈ localKeys env t then some ⟨if k ∈ (env.proto t).readWriteSet then .write else .read,t⟩ else none

def lineOf (env : Env κ τ) (live : List τ) (k : κ) : List (LockRequest τ) := live.filterMap (requestOf env k)

theorem requestOf_txn (asked : requestOf env k t = some r) : r.txn = t ∧ k ∈ localKeys env t := by
  obtain ⟨mine,rfl⟩ := of_guard asked
  exact ⟨rfl,mine⟩

theorem mem_lineOf : r ∈ lineOf env live k ↔ r.txn ∈ live ∧ requestOf env k r.txn = some r := by
  unfold lineOf
  rw [mem_filterMap]
  constructor
  · rintro ⟨_,mem,asked⟩
    obtain ⟨rfl,_⟩ := requestOf_txn asked
    exact ⟨mem,asked⟩
  · rintro ⟨mem,asked⟩
    exact ⟨r.txn,mem,asked⟩

theorem lineOf_txns (live : List τ) (k : κ) : ((lineOf env live k).map txn) <+ live := by
  unfold lineOf
  induction live with
  | nil => simp
  | cons x rest ih =>
    cases asked : requestOf env k x with
    | none => rw [filterMap_cons_none asked]; exact ih.cons x
    | some r =>
      rw [filterMap_cons_some asked,map_cons,(requestOf_txn asked).1]
      exact ih.cons_cons x

theorem lineOf_sound (once : locked.Nodup) (named : ∀ t ∈ locked, (localKeys env t).Nodup) (inside : live <+ locked) :
    Lines env locked (lineOf env live) := by
  refine ⟨?_,?_,named⟩
  · intro k
    exact once.sublist ((lineOf_txns live k).trans inside)
  · intro k r mem
    obtain ⟨here,asked⟩ := mem_lineOf.mp mem
    exact ⟨(requestOf_txn asked).2,inside.subset here⟩

theorem lineOf_release (live : List τ) (t : τ) (k : κ) :
    (if k ∈ localKeys env t then (lineOf env live k).filter (fun r => r.txn ≠ t) else lineOf env live k) =
      lineOf env (live.filter fun u => u ≠ t) k := by
  have kept : (lineOf env live k).filter (fun r => r.txn ≠ t) = lineOf env (live.filter fun u => u ≠ t) k := by
    unfold lineOf
    induction live with
    | nil => rfl
    | cons x rest ih =>
      by_cases same : x = t
      · subst same
        rw [filter_cons_of_neg (by simp)]
        cases asked : requestOf env k x with
        | none => rw [filterMap_cons_none asked]; exact ih
        | some r =>
          rw [filterMap_cons_some asked,filter_cons_of_neg (by simp [(requestOf_txn asked).1])]
          exact ih
      rw [filter_cons_of_pos (by simpa using same)]
      cases asked : requestOf env k x with
      | none => rw [filterMap_cons_none asked,filterMap_cons_none asked]; exact ih
      | some r =>
        rw [filterMap_cons_some asked,filterMap_cons_some asked,
          filter_cons_of_pos (by simpa [(requestOf_txn asked).1] using same),ih]
  split
  · exact kept
  rename_i other
  rw [← kept]
  refine (filter_eq_self.mpr ?_).symm
  intro r mem
  have asked := (requestOf_txn (mem_lineOf.mp mem).2).2
  simp only [ne_eq,decide_not,Bool.not_eq_eq_eq_not,Bool.not_true,decide_eq_false_iff_not]
  rintro rfl
  exact other asked

theorem lineOf_snoc (live : List τ) (t : τ) (k : κ) :
    lineOf env (live ++ [t]) k = lineOf env live k ++ (requestOf env k t).toList := by
  unfold lineOf
  rw [filterMap_append]
  cases asked : requestOf env k t <;> simp [asked]

theorem waiting_other (other : u ≠ t) : waiting env (lineOf env (live ++ [t])) u = waiting env (lineOf env live) u := by
  apply waiting_congr
  intro k _
  rw [lineOf_snoc]
  cases asked : requestOf env k t with
  | none => simp
  | some r =>
    have same := (requestOf_txn asked).1
    exact blocked_snoc_other (by rw [same]; exact Ne.symm other)

theorem waiting_absent (absent : t ∉ live) : waiting env (lineOf env live) t = 0 := by
  rw [waiting_zero]
  intro k _ blocked
  obtain ⟨_,mem,same⟩ := blocked.mem
  exact absent (same ▸ (mem_lineOf.mp mem).1)

section
variable (env : Env κ τ) (t : τ)

def localReads : List κ := (env.proto t).readSet.filter env.isLocal
def localWrites : List κ := (env.proto t).readWriteSet.filter env.isLocal

theorem localKeys_parts : localKeys env t = localReads env t ++ localWrites env t :=
  filter_append _ _

end

theorem requestOf_write (mine : k ∈ localWrites env t) : requestOf env k t = some ⟨.write,t⟩ := by
  rw [requestOf,if_pos (by rw [localKeys_parts]; exact mem_append_right _ mine),if_pos (mem_filter.mp mine).1]

theorem requestOf_read (distinct : (localKeys env t).Nodup) (mine : k ∈ localReads env t) :
    requestOf env k t = some ⟨.read,t⟩ := by
  rw [localKeys_parts] at distinct
  have other : k ∉ (env.proto t).readWriteSet := by
    intro write
    exact (nodup_append.mp distinct).2.2 k mine k (mem_filter.mpr ⟨write,(mem_filter.mp mine).2⟩) rfl
  rw [requestOf,if_pos (by rw [localKeys_parts]; exact mem_append_left _ mine),if_neg other]

theorem fresh_line (absent : t ∉ live) (k : κ) : ∀ y ∈ lineOf env live k, y.txn ≠ t := by
  rintro y mem rfl
  exact absent (mem_lineOf.mp mem).1

theorem write_fails (absent : t ∉ live) (mine : k ∈ localWrites env t) :
    Blocked (lineOf env (live ++ [t]) k) t ↔ (lineOf env live k ++ [(⟨.write,t⟩ : LockRequest τ)]).length > 1 := by
  rw [lineOf_snoc,requestOf_write mine]
  refine (blocked_snoc_self (x := ⟨.write,t⟩) (fresh_line absent k)).trans ?_
  cases lineOf env live k with
  | nil => simp
  | cons y rest => simp [Clash]

theorem read_fails (absent : t ∉ live) (distinct : (localKeys env t).Nodup) (mine : k ∈ localReads env t) :
    Blocked (lineOf env (live ++ [t]) k) t ↔
      (lineOf env live k ++ [(⟨.read,t⟩ : LockRequest τ)]).any (fun r => r.mode = .write) = true := by
  rw [lineOf_snoc,requestOf_read distinct mine]
  refine (blocked_snoc_self (x := ⟨.read,t⟩) (fresh_line absent k)).trans ?_
  simp [Clash]

theorem requestAll_spec (absent : t ∉ live) (distinct : (localKeys env t).Nodup) (filled : Filled env table)
    (queues : queue env table = lineOf env live) :
    (requestAll env t table).2 = waiting env (lineOf env (live ++ [t])) t ∧ Filled env (requestAll env t table).1 ∧
      queue env (requestAll env t table).1 = lineOf env (live ++ [t]) := by
  have parts := localKeys_parts env t
  obtain ⟨readOnce,writeOnce,apart⟩ := nodup_append.mp (parts ▸ distinct)
  have fresh : ∀ k, ∀ y ∈ queue env table k, y.txn ≠ t := queues ▸ fresh_line absent
  obtain ⟨wrote,written,full⟩ := requestLock_foldl .write (fun requests => requests.length > 1)
    (env.proto t).readWriteSet writeOnce (table,0) (fun k _ => fresh k) filled
  obtain ⟨mid,named⟩ : ∃ mid, mid = (env.proto t).readWriteSet.foldl (requestWrite env t) (table,0) := ⟨_,rfl⟩
  change (List.foldl (requestWrite env t) (table,0) _).2 = _ at wrote
  change ∀ k, queue env (List.foldl (requestWrite env t) (table,0) _).1 k = _ at written
  change Filled env (List.foldl (requestWrite env t) (table,0) _).1 at full
  unfold requestAll
  rw [← named] at wrote written full ⊢
  have untouched : ∀ k ∈ localReads env t, queue env mid.1 k = queue env table k := by
    intro k mine
    refine (written k).trans (if_neg ?_)
    intro other
    exact apart k mine k other rfl
  obtain ⟨counted,final,done⟩ := requestLock_foldl .read (fun requests => requests.any fun r => r.mode = .write)
    (env.proto t).readSet readOnce mid (by intro k mine; rw [untouched k mine]; exact fresh k) full
  refine ⟨?_,done,?_⟩
  · refine counted.trans ?_
    unfold waiting
    rw [wrote,parts,countP_append,Nat.add_comm,Int.zero_add]
    push_cast
    congr 2
    · apply countP_congr
      intro k mine
      simp only [decide_eq_true_eq,write_fails absent mine,queues]
    · apply countP_congr
      intro k mine
      simp only [decide_eq_true_eq,read_fails absent distinct mine,untouched k mine,queues]
  funext k
  refine (final k).trans ?_
  rw [lineOf_snoc]
  by_cases reads : k ∈ localReads env t
  · rw [requestOf_read distinct reads,untouched k reads,queues]
    exact if_pos reads
  refine (if_neg reads).trans ((written k).trans ?_)
  by_cases writes : k ∈ localWrites env t
  · rw [requestOf_write writes,queues]
    exact if_pos writes
  · refine (if_neg writes).trans ?_
    rw [requestOf,if_neg (by rw [parts,mem_append]; tauto),queues]
    simp

theorem lock_counts (absent : t ∉ live) (fresh : t ∉ locked) (distinct : (localKeys env t).Nodup)
    (counts : Counts env locked started (lineOf env live) m) :
    Counts env (locked ++ [t]) started (lineOf env (live ++ [t])) (lock env m t) ∧
      ∃ more, (lock env m t).readyTxns = m.readyTxns ++ more := by
  obtain ⟨count,filled,queues⟩ := requestAll_spec absent distinct counts.filled counts.queues
  have before : (started ++ m.readyTxns).count t = 0 := by
    rw [counts.ready t,if_neg (by simp [fresh])]
  have others : ∀ u, u ≠ t → (u ∈ locked ++ [t] ↔ u ∈ locked) := by
    intro u other
    simp [other]
  unfold lock
  dsimp only
  split
  next some =>
    refine ⟨⟨filled,queues,?_,?_⟩,[],by simp⟩
    · intro u
      dsimp only
      by_cases same : u = t
      · subst same
        rw [update_self,count,if_neg (by omega)]
      · rw [update_of_ne same,counts.waits u,waiting_other same]
    intro u
    by_cases same : u = t
    · subst same
      rw [before,if_neg (by omega)]
    · simp only [counts.ready u,waiting_other same,others u same]
  next none =>
    have free : waiting env (lineOf env (live ++ [t])) t = 0 := by omega
    refine ⟨⟨filled,queues,?_,?_⟩,[t],rfl⟩
    · intro u
      by_cases same : u = t
      · subst same
        rw [counts.waits u,waiting_absent absent,free]
      · rw [counts.waits u,waiting_other same]
    intro u
    rw [← append_assoc,count_append]
    by_cases same : u = t
    · subst same
      rw [before,free]; simp
    · rw [counts.ready u,waiting_other same,count_singleton]
      simp [others u same,Ne.symm same]

end
end DbExp.Calvin
