import DbExp.Calvin.LockOrder
import Mathlib.Data.List.TakeWhile

namespace DbExp.Calvin
set_option linter.unusedSectionVars false
open LockLine
open List
open Scheduler (initial readied step)

section
variable {κ τ : Type} [DecidableEq κ] [DecidableEq τ] {env : Env κ τ} {s n : Scheduler κ τ} {t u : τ}

def Conflict (env : Env κ τ) (u t : τ) : Prop :=
  ∃ k, env.isLocal k = true ∧
    (k ∈ (env.proto u).readWriteSet ∧ (k ∈ (env.proto t).readSet ∨ k ∈ (env.proto t).readWriteSet) ∨
      k ∈ (env.proto u).readSet ∧ k ∈ (env.proto t).readWriteSet)

theorem conflict_iff : Conflict env u t ↔
    ∃ k x y, requestOf env k u = some x ∧ requestOf env k t = some y ∧ Clash x.mode y.mode := by
  unfold Conflict requestOf localKeys Clash
  constructor
  · rintro ⟨k,mine,clash⟩
    refine ⟨k,⟨if k ∈ (env.proto u).readWriteSet then .write else .read,u⟩,
      ⟨if k ∈ (env.proto t).readWriteSet then .write else .read,t⟩,if_pos ?_,if_pos ?_,?_⟩
    · simp only [mem_filter,mem_append,mine]; tauto
    · simp only [mem_filter,mem_append,mine]; tauto
    by_cases writes : k ∈ (env.proto u).readWriteSet
    · simp [writes]
    · right
      rw [if_pos (by tauto)]
  rintro ⟨k,x,y,one,two,clash⟩
  split at one
  · split at two
    next first second =>
      cases one; cases two
      simp only [mem_filter,mem_append] at first second
      refine ⟨k,first.2,?_⟩
      by_cases writes : k ∈ (env.proto u).readWriteSet <;> by_cases other : k ∈ (env.proto t).readWriteSet <;>
        simp [writes,other] at clash first second ⊢ <;> tauto
    · cases two
  · cases one

theorem waiting_live {live : List τ} :
    waiting env (lineOf env live) t = 0 ↔ ∀ u, [u,t] <+ live → ¬ Conflict env u t := by
  rw [waiting_zero]
  constructor
  · intro free u pair conflict
    obtain ⟨k,x,y,one,two,clash⟩ := conflict_iff.mp conflict
    exact free k (requestOf_txn two).2 ⟨x,y,pair_filterMap.mpr ⟨u,t,pair,one,two⟩,(requestOf_txn two).1,clash⟩
  rintro free k _ ⟨x,y,pair,rfl,clash⟩
  obtain ⟨u,_,before,one,two⟩ := pair_filterMap.mp pair
  obtain ⟨rfl,_⟩ := requestOf_txn two
  exact free u before (conflict_iff.mpr ⟨k,x,y,one,two,clash⟩)

def live (s : Scheduler κ τ) : List τ := s.locked.filter fun t => t ∉ s.released

structure Scheduled (env : Env κ τ) (s : Scheduler κ τ) : Prop where
  once : s.locked.Nodup
  named : ∀ t ∈ s.locked, (localKeys env t).Nodup
  counts : Counts env s.locked s.started (lineOf env (live s)) s.manager
  released : ∀ t ∈ s.released, t ∈ s.readied
  settled : ∀ t ∈ s.readied, ∀ u, [u,t] <+ s.locked → Conflict env u t → u ∈ s.released ∧ [u,t] <+ s.readied

theorem initial_scheduled : Scheduled env (initial : Scheduler κ τ) := by
  refine ⟨nodup_nil,by simp [initial],⟨?_,?_,?_,?_⟩,by simp [initial],?_⟩
  · intro h k requests got
    cases got
  · funext k
    rfl
  · intro t
    rw [if_pos (waiting_absent (by simp [live,initial]))]
    rfl
  · intro t
    simp [initial]
  · simp [initial,readied]

theorem releaseKeys_absent (keys : List κ) {m out : LockManager κ τ} (absent : ∀ k, ∀ r ∈ queue env m.lockTable k, r.txn ≠ t)
    (done : keys.foldlM (releaseKey env t) m = some out) : out = m := by
  induction keys with
  | nil => cases done; rfl
  | cons key rest ih =>
    rw [foldlM_cons] at done
    obtain ⟨mid,first,path⟩ := Option.bind_eq_some_iff.mp done
    have same : mid = m := by
      unfold releaseKey at first
      split at first
      · cases first
      rename_i requests got
      have none : requests.dropWhile (fun r => r.txn ≠ t) = [] := by
        rw [dropWhile_eq_nil_iff]
        intro r mem
        simpa using absent key r (by rw [queue,got]; exact mem)
      rw [none] at first
      cases first; rfl
    subst same
    exact ih path

section
variable (scheduled : Scheduled env s)
include scheduled

theorem Scheduled.of_readied (mem : t ∈ s.readied) :
    t ∈ s.locked ∧ waiting env (lineOf env (live s)) t = 0 := by
  have count := scheduled.counts.ready t
  have some : 0 < (s.started ++ s.manager.readyTxns).count t := count_pos_iff.mpr mem
  by_contra other
  rw [if_neg other] at count
  omega

theorem settled_extend (once : n.locked.Nodup)
    (counts : Counts env n.locked n.started (lineOf env (live n)) n.manager) (locked : s.locked <+: n.locked)
    (grown : ∀ u ∈ s.released, u ∈ n.released) (back : ∀ u ∈ n.released, u ∈ s.readied) (ready : n.readied = s.readied ++ more) :
    ∀ t ∈ n.readied, ∀ u, [u,t] <+ n.locked → Conflict env u t → u ∈ n.released ∧ [u,t] <+ n.readied := by
  intro t mem u pair conflict
  by_cases old : t ∈ s.readied
  · have known := (scheduled.of_readied old).1
    obtain ⟨_,same⟩ := locked
    have before : [u,t] <+ s.locked := by
      rw [← same] at pair once
      have apart := (nodup_append.mp once).2.2 t known t
      rcases pair_append.mp pair with here | ⟨_,later⟩ | later
      · exact here
      · exact absurd rfl (apart later)
      · exact absurd rfl (apart (pair_mem later).2)
    obtain ⟨done,order⟩ := scheduled.settled t old u before conflict
    exact ⟨grown u done,ready ▸ order.trans (sublist_append_left _ _)⟩
  have free : waiting env (lineOf env (live n)) t = 0 := by
    have count := counts.ready t
    have some : 0 < (n.started ++ n.manager.readyTxns).count t := count_pos_iff.mpr mem
    by_contra other
    rw [if_neg (by tauto)] at count
    omega
  have done : u ∈ n.released := by
    by_contra waits
    refine waiting_live.mp free u (pair_filter.mpr ⟨pair,by simpa using waits,?_⟩) conflict
    simpa using fun gone => old (back t gone)
  refine ⟨done,?_⟩
  rw [ready] at mem ⊢
  exact pair_append.mpr (.inr (.inl ⟨back u done,(mem_append.mp mem).resolve_left old⟩))

theorem Scheduled.released_locked (gone : t ∈ s.released) : t ∈ s.locked :=
  (scheduled.of_readied (scheduled.released t gone)).1

theorem lock_scheduled (fresh : t ∉ s.locked) (distinct : (localKeys env t).Nodup)
    (called : s.step env (.lock t) = some n) : Scheduled env n := by
  cases called
  have kept : t ∉ s.released := fun gone => fresh (scheduled.released_locked gone)
  have absent : t ∉ live s := fun mem => fresh (mem_filter.mp mem).1
  have longer : (s.locked ++ [t]).filter (fun t => t ∉ s.released) = live s ++ [t] := by
    rw [filter_append,filter_cons_of_pos (by simpa using kept)]
    rfl
  have once : (s.locked ++ [t]).Nodup := by
    rw [nodup_append]
    refine ⟨scheduled.once,nodup_singleton t,?_⟩
    intro x old y new same
    exact fresh (mem_singleton.mp new ▸ same ▸ old)
  obtain ⟨counts,more,ready⟩ := lock_counts absent fresh distinct scheduled.counts
  rw [← longer] at counts
  have grown : s.started ++ (lock env s.manager t).readyTxns = s.readied ++ more := by
    rw [ready,← append_assoc]; rfl
  refine ⟨once,?_,counts,?_,settled_extend scheduled once counts (prefix_append _ _) (fun _ gone => gone)
    scheduled.released grown⟩
  · refine forall_mem_append.mpr ⟨scheduled.named,fun u new => ?_⟩
    rw [mem_singleton.mp new]; exact distinct
  intro u gone
  change u ∈ s.started ++ (lock env s.manager t).readyTxns
  rw [grown]
  exact mem_append_left _ (scheduled.released u gone)

theorem start_scheduled (called : s.step env .start = some n) : Scheduled env n := by
  dsimp only [step] at called
  split at called
  · cases called
  rename_i x rest ready
  cases called
  have same : (s.started ++ [x]) ++ rest = s.readied := by
    rw [readied,ready]; simp
  refine ⟨scheduled.once,scheduled.named,⟨scheduled.counts.filled,scheduled.counts.queues,scheduled.counts.waits,?_⟩,?_,?_⟩
  · intro t
    rw [same]
    exact scheduled.counts.ready t
  · intro t gone
    change t ∈ (s.started ++ [x]) ++ rest
    rw [same]
    exact scheduled.released t gone
  · change ∀ t ∈ (s.started ++ [x]) ++ rest, ∀ u, _ → _ → _ ∧ [u,t] <+ (s.started ++ [x]) ++ rest
    rw [same]
    exact scheduled.settled

theorem Scheduled.releases (ready : t ∈ s.readied) (kept : t ∉ s.released) :
    ∃ manager, release env s.manager t = some manager ∧
      Counts env s.locked s.started (lineOf env ((live s).filter fun u => u ≠ t)) manager ∧
      ∃ more, manager.readyTxns = s.manager.readyTxns ++ more := by
  obtain ⟨known,free⟩ := scheduled.of_readied ready
  have mem : t ∈ live s := mem_filter.mpr ⟨known,by simpa using kept⟩
  have held : ∀ k ∈ localKeys env t, (∃ r ∈ lineOf env (live s) k, r.txn = t) ∧ ¬ Blocked (lineOf env (live s) k) t := by
    intro k mine
    refine ⟨⟨⟨if k ∈ (env.proto t).readWriteSet then .write else .read,t⟩,mem_lineOf.mpr ⟨mem,if_pos mine⟩,rfl⟩,?_⟩
    exact waiting_zero.mp free k mine
  have sound := lineOf_sound scheduled.once scheduled.named (filter_sublist : live s <+ s.locked)
  obtain ⟨out,path,counts,grown⟩ := releaseKeys_counts (localKeys env t) (scheduled.named t known) scheduled.counts sound held
  refine ⟨out,path,?_,grown⟩
  convert counts using 1
  funext k
  exact (lineOf_release (live s) t k).symm

theorem release_scheduled (ready : t ∈ s.readied) (called : s.step env (.release t) = some n) :
    Scheduled env n := by
  obtain ⟨manager,done,rfl⟩ := Option.map_eq_some_iff.mp called
  have without : s.locked.filter (fun u => u ∉ s.released ++ [t]) = (live s).filter fun u => u ≠ t := by
    unfold live
    rw [filter_filter]
    apply filter_congr
    intro u _
    by_cases same : u = t <;> simp [same]
  have back : ∀ u ∈ s.released ++ [t], u ∈ s.readied := by
    refine forall_mem_append.mpr ⟨scheduled.released,fun u new => ?_⟩
    rw [mem_singleton.mp new]; exact ready
  obtain ⟨counts,more,grown⟩ : Counts env s.locked s.started (lineOf env ((live s).filter fun u => u ≠ t)) manager ∧
      ∃ more, manager.readyTxns = s.manager.readyTxns ++ more := by
    by_cases gone : t ∈ s.released
    · have absent : t ∉ live s := by
        intro mem
        simpa [gone] using (mem_filter.mp mem).2
      have same : manager = s.manager := by
        refine releaseKeys_absent _ ?_ done
        rw [scheduled.counts.queues]
        exact fresh_line absent
      have kept : (live s).filter (fun u => u ≠ t) = live s := by
        rw [filter_eq_self]
        intro u mem
        simpa using fun same : u = t => absent (same ▸ mem)
      rw [same,kept]
      exact ⟨scheduled.counts,[],by simp⟩
    obtain ⟨out,path,counts⟩ := scheduled.releases ready gone
    obtain rfl : out = manager := Option.some.inj (path.symm.trans done)
    exact counts
  rw [← without] at counts
  have longer : s.started ++ manager.readyTxns = s.readied ++ more := by
    rw [grown,← append_assoc]; rfl
  refine ⟨scheduled.once,scheduled.named,counts,?_,settled_extend scheduled scheduled.once counts prefix_rfl
    (fun u gone => mem_append_left _ gone) back longer⟩
  intro u mem
  change u ∈ s.started ++ manager.readyTxns
  rw [longer]
  exact mem_append_left _ (back u mem)

end

theorem reached_scheduled (reached : (machine env).Reached (Proper env) s) : Scheduled env s := by
  refine reached.invariant (Scheduled env) initial_scheduled ?_
  intro s call n _ scheduled proper called
  cases call with
  | lock t => exact lock_scheduled scheduled proper.1 proper.2 called
  | start => exact start_scheduled scheduled called
  | release t => exact release_scheduled scheduled proper called

def Unhindered (env : Env κ τ) (s : Scheduler κ τ) (t : τ) : Prop :=
  t ∈ s.locked ∧ ∀ u, [u,t] <+ s.locked → u ∉ s.released → ¬ Conflict env u t

theorem Scheduled.ready_iff (scheduled : Scheduled env s) :
    t ∈ s.locked ∧ waiting env (lineOf env (live s)) t = 0 ↔ Unhindered env s t := by
  refine and_congr_right fun known => ?_
  rw [waiting_live]
  constructor
  · intro free u pair kept conflict
    by_cases gone : t ∈ s.released
    · exact kept (scheduled.settled t (scheduled.released t gone) u pair conflict).1
    · exact free u (pair_filter.mpr ⟨pair,by simpa using kept,by simpa using gone⟩) conflict
  · intro free u pair
    obtain ⟨before,kept,_⟩ := pair_filter.mp pair
    exact free u before (by simpa using kept)

structure Deterministic (env : Env κ τ) (s : Scheduler κ τ) : Prop where
  ready : ∀ t, Unhindered env s t → s.readied.count t = 1
  waits : ∀ t, ¬ Unhindered env s t → s.readied.count t = 0
  releases : ∀ t ∈ s.readied, t ∉ s.released → ((machine env).step s (.release t)).isSome
  ordered : ∀ t u, [t,u] <+ s.locked → Conflict env t u → u ∈ s.readied → t ∈ s.released ∧ [t,u] <+ s.readied
  progress : (∃ slot, (s.manager.lockTable slot).lists ≠ []) → ∃ t ∈ s.readied, t ∉ s.released

theorem lock_order_deterministic (env : Env κ τ) (s : Scheduler κ τ) (reached : (machine env).Reached (Proper env) s) :
    Deterministic env s := by
  have scheduled := reached_scheduled reached
  have ready : ∀ t, Unhindered env s t → s.readied.count t = 1 := by
    intro t free
    exact (scheduled.counts.ready t).trans (if_pos (scheduled.ready_iff.mpr free))
  refine ⟨ready,?_,?_,?_,?_⟩
  · intro t hindered
    exact (scheduled.counts.ready t).trans (if_neg fun free => hindered (scheduled.ready_iff.mp free))
  · intro t member kept
    obtain ⟨manager,done,_⟩ := scheduled.releases member kept
    simp [machine,Scheduler.step,done]
  · intro t u pair conflict member
    exact scheduled.settled u member t pair conflict
  rintro ⟨_,some⟩
  obtain ⟨_,busy⟩ := filled_queue scheduled.counts.filled some
  rw [scheduled.counts.queues] at busy
  cases waiting : live s with
  | nil => rw [waiting] at busy; exact absurd rfl busy
  | cons first rest =>
    have member : first ∈ live s := by rw [waiting]; simp
    have alone : ∀ u, ¬ [u,first] <+ live s := by
      intro u pair
      have once : (live s).Nodup := scheduled.once.sublist filter_sublist
      rw [waiting] at pair once
      have fresh := (nodup_cons.mp once).1
      rcases pair_cons.mp pair with ⟨_,later⟩ | later
      · exact fresh later
      · exact fresh (pair_mem later).2
    obtain ⟨known,kept⟩ := mem_filter.mp member
    have free : Unhindered env s first :=
      scheduled.ready_iff.mp ⟨known,waiting_live.mpr fun u pair => absurd pair (alone u)⟩
    exact ⟨first,count_pos_iff.mp (by rw [ready first free]; omega),by simpa using kept⟩

end

-- A writer, two readers and a writer of one key, next to a key that lives elsewhere.
def fourOnOneKey : Env (List Int8) Nat where
  hash := hash
  isLocal := fun key => key = [107,49]
  proto := fun t => if t = 1 ∨ t = 4 then ⟨[[107,50]],[[107,49]]⟩ else ⟨[[107,49],[107,50]],[]⟩

theorem lock_order_writer_readers_writer : ∃ s : Scheduler (List Int8) Nat,
    Deterministic fourOnOneKey s ∧ s.readied = [1,2,3,4] ∧ s.released = [1,3,2] := by
  obtain ⟨s,reached,seen⟩ := Machine.reached_of_run (machine fourOnOneKey) (Proper fourOnOneKey)
    (fun s => s.readied = [1,2,3,4] ∧ s.released = [1,3,2])
    [.lock 1,.lock 2,.lock 3,.start,.lock 4,.release 1,.start,.start,.release 3,.release 2,.start] (by decide +kernel)
  exact ⟨s,lock_order_deterministic fourOnOneKey s reached,seen⟩

end DbExp.Calvin
