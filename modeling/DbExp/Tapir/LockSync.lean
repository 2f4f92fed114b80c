import DbExp.Tapir.LockServer

namespace DbExp.Tapir.Lock
open Ir (Opid RecordEntry Record)
open OrdMap (find_insert mem_entries find_empty)
open List

-- What has been done with the locks, in order: `type` is true for a lock. The holder of a
-- key is whoever locked it last, unless it has been unlocked since.
def holder (history : List Request) (key : String) : Option Nat :=
  (history.filter fun op => op.key = key).getLast?.bind fun op => if op.type then some op.clientid else none

inductive Respects : List Request → Prop where
  | nil : Respects []
  | lock (before : Respects history) (free : holder history key = none ∨ holder history key = some client) :
      Respects (history ++ [⟨client,key,true⟩])
  | unlock (before : Respects history) (held : holder history key = some client) : Respects (history ++ [⟨client,key,false⟩])

def LastLocks (history : List Request) (key : String) (client : Nat) : Prop :=
  (history.filter fun op => op.clientid = client ∧ op.key = key).getLast? = some ⟨client,key,true⟩

theorem holder_append (history : List Request) (op : Request) (key : String) :
    holder (history ++ [op]) key = if op.key = key then if op.type then some op.clientid else none else holder history key := by
  unfold holder
  rw [filter_append]
  by_cases same : op.key = key
  · simp [same]
  · simp [same]

theorem lastLocks_append (history : List Request) (op : Request) (key : String) (client : Nat) :
    LastLocks (history ++ [op]) key client ↔
      if op.clientid = client ∧ op.key = key then op.type = true else LastLocks history key client := by
  unfold LastLocks
  rw [filter_append]
  by_cases same : op.clientid = client ∧ op.key = key
  · obtain ⟨_,_,type⟩ := op
    obtain ⟨rfl,rfl⟩ := same
    simp
  · have vacant : [op].filter (fun op => op.clientid = client ∧ op.key = key) = [] := by
      simpa using same
    rw [vacant,append_nil,if_neg same]

section
variable {history : List Request} {key : String}

section
variable (respects : Respects history)
include respects

theorem lastLocks_iff (client : Nat) :
    LastLocks history key client ↔ holder history key = some client := by
  induction respects with
  | nil => simp [LastLocks,holder]
  | @lock history k c before free ih =>
    rw [lastLocks_append,holder_append]
    by_cases same : k = key
    · subst same
      by_cases own : c = client
      · simp [own]
      simp only [own,false_and,if_false,if_true,ih,Option.some.injEq]
      rcases free with vacant | other
      · simp [vacant]
      · simp [other,own]
    · simpa [same] using ih
  | @unlock history k c before held ih =>
    rw [lastLocks_append,holder_append]
    by_cases same : k = key
    · subst same
      by_cases own : c = client
      · simp [own]
      · simp [own,ih,held]
    · simpa [same] using ih

theorem locked_of_unlocked (unlocked : ⟨client,key,false⟩ ∈ history) : ⟨client,key,true⟩ ∈ history := by
  induction respects with
  | nil => cases unlocked
  | lock before free ih =>
    rcases mem_append.mp unlocked with old | new
    · exact mem_append_left _ (ih old)
    · cases mem_singleton.mp new
  | unlock before held ih =>
    rcases mem_append.mp unlocked with old | new
    · exact mem_append_left _ (ih old)
    cases mem_singleton.mp new
    refine mem_append_left _ ?_
    have last := (lastLocks_iff before client).mpr held
    exact (mem_filter.mp (mem_of_getLast? last)).1

theorem locked_of_holder (held : holder history key = some client) : ⟨client,key,true⟩ ∈ history := by
  have last := (lastLocks_iff respects client).mpr held
  exact (mem_filter.mp (mem_of_getLast? last)).1

theorem unlocked_or_holder (locked : ⟨client,key,true⟩ ∈ history) :
    ⟨client,key,false⟩ ∈ history ∨ holder history key = some client := by
  induction respects with
  | nil => cases locked
  | @lock history k c before free ih =>
    rw [holder_append]
    rcases mem_append.mp locked with old | new
    · rcases ih old with unlocked | held
      · exact .inl (mem_append_left _ unlocked)
      right
      by_cases same : k = key
      · subst same
        rcases free with vacant | own
        · rw [vacant] at held
          cases held
        · rw [own] at held
          simp [Option.some.inj held]
      · simpa [same] using held
    · cases mem_singleton.mp new
      simp
  | @unlock history k c before freed ih =>
    rw [holder_append]
    rcases mem_append.mp locked with old | new
    · rcases ih old with unlocked | held
      · exact .inl (mem_append_left _ unlocked)
      by_cases same : k = key
      · subst same
        rw [freed] at held
        cases held
        exact .inl (mem_append_right _ mem_cons_self)
      · exact .inr (by simpa [same] using held)
    · cases mem_singleton.mp new

end

end

section
variable {a : Nat} {xs ys : List Nat}

theorem setDifference_nil : setDifference xs [] = xs := by
  cases xs <;> simp [setDifference]

theorem setDifference_same : setDifference (a :: xs) (a :: ys) = setDifference xs ys := by
  rw [setDifference]
  simp

theorem setDifference_less (less : a < b) : setDifference (a :: xs) (b :: ys) = a :: setDifference xs (b :: ys) := by
  rw [setDifference,if_pos less]

theorem setDifference_greater (less : b < a) : setDifference (a :: xs) (b :: ys) = setDifference (a :: xs) ys := by
  rw [setDifference,if_neg (Nat.lt_asymm less),if_pos less]

theorem mem_of_setDifference (mem : x ∈ setDifference xs ys) : x ∈ xs := by
  induction xs,ys using setDifference.induct with
  | case1 ys => simp [setDifference] at mem
  | case2 y ys => rwa [setDifference_nil] at mem
  | case3 y xs z ys less ih =>
    rw [setDifference_less less] at mem
    rcases mem_cons.mp mem with rfl | later
    · exact mem_cons_self
    · exact .tail _ (ih later)
  | case4 y xs z ys _ less ih =>
    rw [setDifference_greater less] at mem
    exact ih mem
  | case5 y xs z ys notLess notGreater ih =>
    cases Nat.le_antisymm (Nat.le_of_not_lt notGreater) (Nat.le_of_not_lt notLess)
    rw [setDifference_same] at mem
    exact .tail _ (ih mem)

end

section
variable (locked unlocked : List Nat) (holds : Option Nat)

structure Tenure : Prop where
  lockedOnce : locked.Nodup
  unlockedOnce : unlocked.Nodup
  sub : ∀ a ∈ unlocked, a ∈ locked
  own : ∀ c, holds = some c → c ∈ locked
  rest : ∀ a ∈ locked, a ∈ unlocked ∨ holds = some a

def EveryOrder : Prop :=
  ∀ ls us, ls.Perm locked → us.Perm unlocked → setDifference ls us = holds.toList

end

section
variable {locked unlocked : List Nat} {holds : Option Nat}

section
variable (tenure : Tenure locked unlocked holds) (every : EveryOrder locked unlocked holds)
include tenure every

theorem Tenure.holder_kept (held : holds = some c) :
    c ∉ unlocked := by
  intro freed
  have diff := every _ _ (perm_cons_erase (tenure.own c held)).symm (perm_cons_erase freed).symm
  rw [setDifference_same,held] at diff
  have output : c ∈ setDifference (locked.erase c) (unlocked.erase c) := by rw [diff]; exact mem_cons_self
  exact tenure.lockedOnce.not_mem_erase (mem_of_setDifference output)

theorem Tenure.unlocker_alone (one : a ∈ unlocked)
    (two : b ∈ unlocked) : ¬ a < b := by
  intro less
  have diff := every _ _ (perm_cons_erase (tenure.sub a one)).symm (perm_cons_erase two).symm
  rw [setDifference_less less] at diff
  cases held : holds with
  | none =>
    rw [held] at diff
    cases diff
  | some c =>
    rw [held] at diff
    cases (List.cons.inj diff).1
    exact tenure.holder_kept every held one

end

theorem erase_alone (once : unlocked.Nodup) (only : ∀ b ∈ unlocked, b = a) : unlocked.erase a = [] := by
  refine eq_nil_iff_forall_not_mem.mpr fun b mem => ?_
  cases only b (mem_of_mem_erase mem)
  exact once.not_mem_erase mem

theorem Tenure.holder_smaller (tenure : Tenure locked unlocked holds) (every : EveryOrder locked unlocked holds)
    (only : ∀ a ∈ unlocked, ∀ b ∈ unlocked, a = b) (held : holds = some c) (freed : a ∈ unlocked) : c < a := by
  by_contra notLess
  have apart : a ≠ c := fun same => tenure.holder_kept every held (same ▸ freed)
  have less : a < c := by omega
  have diff := every _ _ (perm_cons_erase (tenure.own c held)).symm (perm_cons_erase freed).symm
  rw [setDifference_greater less,erase_alone tenure.unlockedOnce (fun b mem => only b mem a freed),setDifference_nil,held] at diff
  have kept : a ∈ locked.erase c := (mem_erase_of_ne apart).mpr (tenure.sub a freed)
  rw [(List.cons.inj diff).2] at kept
  cases kept

theorem perm_pair {a c : Nat} (apart : c ≠ a) (perm : ls.Perm [c,a]) : ls = [c,a] ∨ ls = [a,c] := by
  have once : ls.Nodup := perm.nodup_iff.mpr (by simpa using apart)
  match ls,perm.length_eq with
  | [x,y],_ =>
    have one := perm.mem_iff.mp (mem_cons_self : x ∈ [x,y])
    have two := perm.mem_iff.mp (mem_cons_of_mem x mem_cons_self : y ∈ [x,y])
    rw [mem_pair] at one two
    rcases one with rfl | rfl <;> rcases two with rfl | rfl <;> simp_all

theorem Tenure.never_unlocked (tenure : Tenure locked [] holds) : EveryOrder locked [] holds := by
  intro ls us lsPerm usPerm
  rw [List.Perm.eq_nil usPerm,setDifference_nil]
  have members : ∀ a, a ∈ ls ↔ a ∈ holds.toList := by
    intro a
    rw [lsPerm.mem_iff,Option.mem_toList]
    exact ⟨fun mem => (tenure.rest a mem).resolve_left (by simp),tenure.own a⟩
  have perm := (perm_ext_iff_of_nodup (lsPerm.nodup_iff.mpr tenure.lockedOnce) (by cases holds <;> simp)).mpr members
  cases holds with
  | none => exact List.Perm.eq_nil perm
  | some c => exact perm_singleton.mp perm

theorem Tenure.unlocked_once (tenure : Tenure locked [a] holds) (smaller : ∀ c, holds = some c → c < a) : EveryOrder locked [a] holds := by
  intro ls us lsPerm usPerm
  rw [perm_singleton.mp usPerm]
  have once := lsPerm.nodup_iff.mpr tenure.lockedOnce
  have members : ∀ x, x ∈ ls ↔ x = a ∨ holds = some x := by
    intro x
    rw [lsPerm.mem_iff]
    refine ⟨fun mem => (tenure.rest x mem).imp_left mem_singleton.mp,?_⟩
    rintro (rfl | held)
    · exact tenure.sub x mem_cons_self
    · exact tenure.own x held
  cases held : holds with
  | none =>
    have perm : ls.Perm [a] := (perm_ext_iff_of_nodup once (nodup_singleton a)).mpr (by simp [members,held])
    rw [perm_singleton.mp perm,setDifference_same,setDifference_nil]
    rfl
  | some c =>
    have less := smaller c held
    have perm : ls.Perm [c,a] := by
      refine (perm_ext_iff_of_nodup once (by simp [Nat.ne_of_lt less])).mpr fun x => ?_
      rw [members,held,mem_pair,Option.some.injEq,or_comm,eq_comm (a := c)]
    rcases perm_pair (Nat.ne_of_lt less) perm with rfl | rfl
    · rw [setDifference_less less,setDifference_same,setDifference_nil]
      rfl
    · rw [setDifference_same,setDifference_nil]
      rfl

theorem every_order_iff (tenure : Tenure locked unlocked holds) :
    EveryOrder locked unlocked holds ↔
      (∀ a ∈ unlocked, ∀ b ∈ unlocked, a = b) ∧ ∀ c, holds = some c → ∀ a ∈ unlocked, c < a := by
  constructor
  · intro every
    have only : ∀ a ∈ unlocked, ∀ b ∈ unlocked, a = b := fun a one b two =>
      Nat.le_antisymm (Nat.le_of_not_lt (tenure.unlocker_alone every two one)) (Nat.le_of_not_lt (tenure.unlocker_alone every one two))
    exact ⟨only,fun c held a freed => tenure.holder_smaller every only held freed⟩
  rintro ⟨only,smaller⟩
  cases unlocked with
  | nil => exact tenure.never_unlocked
  | cons a more =>
    have alone := erase_alone tenure.unlockedOnce (fun b mem => only b mem a mem_cons_self)
    rw [erase_cons_head] at alone
    subst alone
    exact tenure.unlocked_once fun c held => smaller c held a mem_cons_self

end

def Arrangement.only (key : String) (ls us : List Nat) : Arrangement where
  of := fun k info => if k = key ∧ ls.Perm info.locked ∧ us.Perm info.unlocked then ⟨ls,us⟩ else info
  locked := by
    intro k info
    split
    · rename_i here
      exact here.2.1
    · exact .refl _
  unlocked := by
    intro k info
    split
    · rename_i here
      exact here.2.2
    · exact .refl _


def syncKeyAsserting (order : Arrangement) (locks : Locks) (p : String × KeyLockInfo) : Option Locks :=
  match order.diff p with
  | [] => some locks
  | [clientId] => some (locks.insert p.1 clientId)
  | _ => none

def syncAsserting (wire : Wire) (order : Arrangement) (record : Record) : Option Locks :=
  (syncInfo wire record).entries.foldlM (syncKeyAsserting order) .empty

def infoAt (info : OrdMap String KeyLockInfo) (key : String) : KeyLockInfo := (info.find key).getD {}

def successes (wire : Wire) (entries : List (Opid × RecordEntry)) : List Request :=
  entries.filterMap fun p =>
    if (wire.reply.parseFromString p.2.result).status = 0 then some (wire.request.parseFromString p.2.request.op) else none

def Records (wire : Wire) (record : Record) (history : List Request) : Prop :=
  ∀ op, op ∈ successes wire record.entries ↔ op ∈ history

section
variable {wire : Wire}

theorem mem_insertNew : x ∈ insertNew y xs ↔ x = y ∨ x ∈ xs := by
  unfold insertNew
  split
  next there =>
    refine ⟨.inr,?_⟩
    rintro (rfl | mem)
    · exact there
    · exact mem
  · simp [or_comm]

theorem nodup_insertNew (once : xs.Nodup) : (insertNew y xs).Nodup := by
  unfold insertNew
  split
  · exact once
  rename_i absent
  refine nodup_append.mpr ⟨once,nodup_singleton y,?_⟩
  intro x mem z last
  cases mem_singleton.mp last
  exact fun same => absent (same ▸ mem)

structure Fills (ops : List Request) (key : String) (info : KeyLockInfo) : Prop where
  lockedOnce : info.locked.Nodup
  unlockedOnce : info.unlocked.Nodup
  locked : ∀ c, c ∈ info.locked ↔ ⟨c,key,true⟩ ∈ ops
  unlocked : ∀ c, c ∈ info.unlocked ↔ ⟨c,key,false⟩ ∈ ops

def noteAt (key : String) (info : KeyLockInfo) (op : Request) : KeyLockInfo :=
  if op.key ≠ key then info
  else if op.type then {info with locked := insertNew op.clientid info.locked}
  else {info with unlocked := insertNew op.clientid info.unlocked}

theorem Fills.note (fills : Fills ops key info) (op : Request) : Fills (ops ++ [op]) key (noteAt key info op) := by
  obtain ⟨_,k,type⟩ := op
  unfold noteAt
  by_cases same : k = key
  · subst same
    rw [if_neg (not_not_intro rfl)]
    cases type with
    | true =>
      refine ⟨nodup_insertNew fills.lockedOnce,fills.unlockedOnce,fun c => ?_,fun c => ?_⟩
      · simp [mem_insertNew,fills.locked,or_comm]
      · simp [fills.unlocked]
    | false =>
      refine ⟨fills.lockedOnce,nodup_insertNew fills.unlockedOnce,fun c => ?_,fun c => ?_⟩
      · simp [fills.locked]
      · simp [mem_insertNew,fills.unlocked,or_comm]
  rw [if_pos same]
  refine ⟨fills.lockedOnce,fills.unlockedOnce,fun c => ?_,fun c => ?_⟩
  · simp [fills.locked,Ne.symm same]
  · simp [fills.unlocked,Ne.symm same]

theorem infoAt_syncEntry (info : OrdMap String KeyLockInfo) (p : Opid × RecordEntry) (key : String) :
    infoAt (syncEntry wire info p) key = (successes wire [p]).foldl (noteAt key) (infoAt info key) := by
  unfold infoAt syncEntry successes
  rw [find_insert]
  by_cases succeeded : (wire.reply.parseFromString p.2.result).status = 0
  · by_cases same : (wire.request.parseFromString p.2.request.op).key = key
    · simp [succeeded,same,noteAt]
    · simp [succeeded,same,noteAt]
  · by_cases same : (wire.request.parseFromString p.2.request.op).key = key
    · simp [succeeded,same]
    · simp [succeeded,same]

theorem foldl_fills (entries : List (Opid × RecordEntry)) (info : OrdMap String KeyLockInfo) (fills : Fills ops key (infoAt info key)) :
    Fills (ops ++ successes wire entries) key (infoAt (entries.foldl (syncEntry wire) info) key) := by
  induction entries generalizing info ops with
  | nil => simpa [successes] using fills
  | cons p rest ih =>
    have split : successes wire (p :: rest) = successes wire [p] ++ successes wire rest := by
      rw [successes,successes,successes,← filterMap_append]
      rfl
    rw [foldl_cons,split,← append_assoc]
    refine ih _ ?_
    rw [infoAt_syncEntry]
    unfold successes
    by_cases succeeded : (wire.reply.parseFromString p.2.result).status = 0
    · simpa [succeeded] using fills.note (wire.request.parseFromString p.2.request.op)
    · simpa [succeeded] using fills

theorem syncInfo_fills (record : Record) (key : String) :
    Fills (successes wire record.entries) key (infoAt (syncInfo wire record) key) := by
  have start : Fills [] key (infoAt .empty key) :=
    ⟨nodup_nil,nodup_nil,fun c => iff_of_false not_mem_nil not_mem_nil,
      fun c => iff_of_false not_mem_nil not_mem_nil⟩
  exact foldl_fills record.entries .empty start

theorem tenure_of_records (respects : Respects history) (records : Records wire record history) (key : String) :
    Tenure (infoAt (syncInfo wire record) key).locked (infoAt (syncInfo wire record) key).unlocked (holder history key) := by
  have fills : Fills (successes wire record.entries) key (infoAt (syncInfo wire record) key) := syncInfo_fills record key
  have locked (c : Nat) : c ∈ (infoAt (syncInfo wire record) key).locked ↔ ⟨c,key,true⟩ ∈ history := (fills.locked c).trans (records _)
  have unlocked (c : Nat) : c ∈ (infoAt (syncInfo wire record) key).unlocked ↔ ⟨c,key,false⟩ ∈ history :=
    (fills.unlocked c).trans (records _)
  refine ⟨fills.lockedOnce,fills.unlockedOnce,?_,?_,?_⟩
  · intro a freed
    exact (locked a).mpr (locked_of_unlocked respects ((unlocked a).mp freed))
  · intro c held
    exact (locked c).mpr (locked_of_holder respects held)
  · intro a taken
    exact (unlocked_or_holder respects ((locked a).mp taken)).imp_left (unlocked a).mpr

end

section
variable {order : Arrangement}

theorem syncKeyAsserting_small (small : (order.diff p).length ≤ 1) (locks : Locks) :
    ∃ out, syncKeyAsserting order locks p = some out ∧ ∀ key, out.find key = if p.1 = key then (order.diff p).head?.or (locks.find key)
      else locks.find key := by
  unfold syncKeyAsserting
  match got : order.diff p with
  | [] => exact ⟨locks,rfl,fun key => by simp⟩
  | [c] =>
    refine ⟨locks.insert p.1 c,rfl,fun key => ?_⟩
    rw [find_insert]
    simp
  | _ :: _ :: _ => simp [got] at small

theorem foldlM_small {xs : List (String × KeyLockInfo)} (sorted : xs.Pairwise fun a b => a.1 < b.1) (small : ∀ p ∈ xs, (order.diff p).length ≤ 1)
    (locks : Locks) : ∃ out, xs.foldlM (syncKeyAsserting order) locks = some out ∧
      (∀ p ∈ xs, out.find p.1 = (order.diff p).head?.or (locks.find p.1)) ∧ ∀ key, key ∉ xs.map Prod.fst → out.find key = locks.find key := by
  induction xs generalizing locks with
  | nil => exact ⟨locks,rfl,fun p mem => (by cases mem),fun key _ => rfl⟩
  | cons p rest ih =>
    obtain ⟨first,ordered⟩ := pairwise_cons.mp sorted
    obtain ⟨next,done,nexts⟩ := syncKeyAsserting_small (small p mem_cons_self) locks
    obtain ⟨out,finished,inside,outside⟩ := ih ordered (fun q mem => small q (.tail _ mem)) next
    have apart : p.1 ∉ rest.map Prod.fst := by
      intro mem
      obtain ⟨q,listed,same⟩ := mem_map.mp mem
      exact absurd (first q listed) (by rw [same]; exact lt_irrefl _)
    refine ⟨out,?_,?_,?_⟩
    · rw [foldlM_cons,done]
      exact finished
    · intro q mem
      rcases mem_cons.mp mem with rfl | later
      · rw [outside q.1 apart,nexts,if_pos rfl]
      · have other : p.1 ≠ q.1 := (first q later).ne
        rw [inside q later,nexts,if_neg other]
    · intro key absent
      rw [map_cons,mem_cons,not_or] at absent
      rw [outside key absent.2,nexts,if_neg (Ne.symm absent.1)]

theorem foldlM_large {xs : List (String × KeyLockInfo)} (mem : p ∈ xs) (large : 1 < (order.diff p).length) (locks : Locks) :
    xs.foldlM (syncKeyAsserting order) locks = none := by
  induction xs generalizing locks with
  | nil => cases mem
  | cons q rest ih =>
    rw [foldlM_cons]
    rcases mem_cons.mp mem with rfl | later
    · have fails : syncKeyAsserting order locks p = none := by
        unfold syncKeyAsserting
        match got : order.diff p with
        | [] => simp [got] at large
        | [_] => simp [got] at large
        | _ :: _ :: _ => rfl
      rw [fails]
      rfl
    · cases syncKeyAsserting order locks q with
      | none => rfl
      | some next => exact ih later next

theorem diff_absent (absent : info.find key = none) : order.diff (key,infoAt info key) = [] := by
  have empty : infoAt info key = {} := by rw [infoAt,absent]; rfl
  have vacant : (order.of key (infoAt info key)).locked = [] := List.Perm.eq_nil (empty ▸ order.locked key (infoAt info key))
  unfold Arrangement.diff
  rw [vacant,setDifference]

theorem rebuilds_iff (m : OrdMap String KeyLockInfo) (holds : String → Option Nat) :
    (∃ locks, m.entries.foldlM (syncKeyAsserting order) .empty = some locks ∧ ∀ key, locks.find key = holds key) ↔
      ∀ key, order.diff (key,infoAt m key) = (holds key).toList := by
  have stored {key : String} {info : KeyLockInfo} (got : m.find key = some info) : infoAt m key = info := by rw [infoAt,got]; rfl
  have entry {p : String × KeyLockInfo} (mem : p ∈ m.entries) : p = (p.1,infoAt m p.1) := by
    rw [stored (mem_entries.mp mem)]
  have absent {key : String} (missing : m.find key = none) : key ∉ m.entries.map Prod.fst := by
    intro listed
    obtain ⟨p,mem,rfl⟩ := mem_map.mp listed
    rw [mem_entries.mp mem] at missing
    cases missing
  constructor
  · rintro ⟨locks,done,finds⟩ key
    have small : ∀ p ∈ m.entries, (order.diff p).length ≤ 1 := by
      intro p mem
      by_contra large
      rw [foldlM_large mem (Nat.lt_of_not_le large)] at done
      cases done
    obtain ⟨out,finished,inside,outside⟩ := foldlM_small m.sorted small .empty
    cases Option.some.inj (done.symm.trans finished)
    cases got : m.find key with
    | none =>
      rw [diff_absent got,← finds key,outside key (absent got)]
      rfl
    | some info =>
      have mem := mem_entries.mpr got
      have head := inside _ mem
      have short := small _ mem
      rw [stored got,← finds key,head,find_empty,Option.or_none]
      match order.diff (key,info),short with
      | [],_ => rfl
      | [_],_ => rfl
  intro diffs
  have small : ∀ p ∈ m.entries, (order.diff p).length ≤ 1 := by
    intro p mem
    rw [entry mem,diffs]
    cases holds p.1 <;> simp
  obtain ⟨out,finished,inside,outside⟩ := foldlM_small m.sorted small .empty
  refine ⟨out,finished,fun key => ?_⟩
  cases got : m.find key with
  | none =>
    have diff := diffs key
    rw [diff_absent got] at diff
    rw [outside key (absent got),find_empty]
    cases held : holds key with
    | none => rfl
    | some c =>
      rw [held] at diff
      cases diff
  | some info =>
    have head := inside _ (mem_entries.mpr got)
    rw [head,← stored got,diffs key]
    cases holds key <;> rfl

end

theorem only_diff (key : String) (lsPerm : ls.Perm info.locked) (usPerm : us.Perm info.unlocked) :
    (Arrangement.only key ls us).diff (key,info) = setDifference ls us := by
  have arranged : (Arrangement.only key ls us).of key info = ⟨ls,us⟩ := if_pos ⟨rfl,lsPerm,usPerm⟩
  unfold Arrangement.diff
  rw [arranged]

theorem every_arrangement_iff (info : KeyLockInfo) (holds : Option Nat) :
    (∀ order : Arrangement, order.diff (key,info) = holds.toList) ↔ EveryOrder info.locked info.unlocked holds := by
  constructor
  · intro every ls us lsPerm usPerm
    rw [← only_diff key lsPerm usPerm,every]
  · intro every order
    exact every _ _ (order.locked key info) (order.unlocked key info)

-- Sync gives each key to the client whose last operation on it is a lock, and to nobody else,
-- in whatever order it goes through its sets.
def Rebuilds (wire : Wire) (record : Record) (history : List Request) : Prop :=
  ∀ order, ∃ locks, syncAsserting wire order record = some locks ∧ ∀ key client, locks.find key = some client ↔ LastLocks history key client

-- A key has been unlocked by one client at most, and its holder, if it has one, has a smaller id.
def OneUnlocker (history : List Request) : Prop :=
  ∀ key, (∀ a b, ⟨a,key,false⟩ ∈ history → ⟨b,key,false⟩ ∈ history → a = b) ∧
    ∀ c, LastLocks history key c → ∀ a, ⟨a,key,false⟩ ∈ history → c < a

theorem rebuilds_iff_every_order (respects : Respects history) :
    Rebuilds wire record history ↔
      ∀ key, EveryOrder (infoAt (syncInfo wire record) key).locked (infoAt (syncInfo wire record) key).unlocked (holder history key) := by
  have holders (locks : Locks) : (∀ key client, locks.find key = some client ↔ LastLocks history key client) ↔
      ∀ key, locks.find key = holder history key := by
    refine forall_congr' fun key => ?_
    rw [Option.ext_iff]
    exact forall_congr' fun client => iff_congr Iff.rfl (lastLocks_iff respects client)
  unfold Rebuilds syncAsserting
  simp only [holders,rebuilds_iff]
  rw [forall_comm]
  exact forall_congr' fun key => every_arrangement_iff _ _

theorem rebuilds_iff_one_unlocker (wire : Wire) (record : Record) (history : List Request) (respects : Respects history)
    (records : Records wire record history) : Rebuilds wire record history ↔ OneUnlocker history := by
  rw [rebuilds_iff_every_order respects]
  refine forall_congr' fun key => ?_
  rw [every_order_iff (tenure_of_records respects records key)]
  have unlocked (c : Nat) : c ∈ (infoAt (syncInfo wire record) key).unlocked ↔ ⟨c,key,false⟩ ∈ history :=
    ((syncInfo_fills record key).unlocked c).trans (records _)
  simp only [unlocked,lastLocks_iff respects]
  refine and_congr ⟨?_,?_⟩ Iff.rfl
  · intro alone a b one two
    exact alone a one b two
  · intro alone a one b two
    exact alone a b one two

-- The record of a history: a lock is a consensus operation that was granted, and an unlock an
-- inconsistent one, which has no result.
def entryOf (wire : Wire) (op : Request) (number : Nat) : RecordEntry :=
  ⟨0,⟨op.clientid,number⟩,.finalized,if op.type then .consensus else .inconsistent,
    ⟨wire.request.serializeToString op,op.clientid,number⟩,if op.type then wire.reply.serializeToString ⟨op.key,0⟩ else ""⟩

def recordOf (wire : Wire) (history : List Request) : Record :=
  history.zipIdx.foldl (fun record p => record.add (entryOf wire p.1 p.2)) .empty

section
variable {wire : Wire}

theorem recordOf_append (history : List Request) (op : Request) :
    recordOf wire (history ++ [op]) = (recordOf wire history).add (entryOf wire op history.length) := by
  unfold recordOf
  rw [zipIdx_append,foldl_append]
  simp

theorem recordOf_new (history : List Request) (client : Nat) (late : history.length ≤ number) :
    (recordOf wire history).find ⟨client,number⟩ = none := by
  induction history using List.reverseRecOn with
  | nil => rfl
  | append_singleton before op ih =>
    rw [length_append,length_singleton] at late
    rw [recordOf_append,Record.find_add,if_neg]
    · exact ih (by omega)
    · intro same
      have numbered : before.length = number := congrArg Opid.clientreqid same
      omega

theorem mem_successes {record : Record} : op ∈ successes wire record.entries ↔
    ∃ opid e, record.find opid = some e ∧ (wire.reply.parseFromString e.result).status = 0 ∧ wire.request.parseFromString e.request.op = op := by
  unfold successes
  rw [mem_filterMap]
  constructor
  · rintro ⟨⟨opid,e⟩,mem,kept⟩
    split at kept
    next succeeded =>
      exact ⟨opid,e,mem_entries.mp mem,succeeded,Option.some.inj kept⟩
    · cases kept
  · rintro ⟨opid,e,got,succeeded,rfl⟩
    exact ⟨(opid,e),mem_entries.mpr got,if_pos succeeded⟩

theorem entryOf_succeeds (op : Request) (number : Nat) :
    (wire.reply.parseFromString (entryOf wire op number).result).status = 0 := by
  unfold entryOf
  split
  · rw [wire.reply.parse_serialize]
  · rw [wire.reply.parse_nothing]

theorem records_recordOf (history : List Request) : Records wire (recordOf wire history) history := by
  induction history using List.reverseRecOn with
  | nil => exact fun op => by simp [mem_successes,recordOf]
  | append_singleton before last ih =>
    intro op
    have new : (recordOf wire before).find ⟨last.clientid,before.length⟩ = none := recordOf_new before last.clientid le_rfl
    rw [mem_append,mem_singleton,← ih op,recordOf_append,mem_successes,mem_successes]
    simp only [Record.find_add]
    constructor
    · rintro ⟨opid,e,got,succeeded,rfl⟩
      split at got
      · cases got
        exact .inr (wire.request.parse_serialize last)
      · exact .inl ⟨opid,e,got,succeeded,rfl⟩
    rintro (⟨opid,e,got,succeeded,rfl⟩ | rfl)
    · refine ⟨opid,e,?_,succeeded,rfl⟩
      rw [if_neg,got]
      rintro rfl
      have vacant := new.symm.trans got
      cases vacant
    · exact ⟨_,entryOf wire op before.length,if_pos rfl,entryOf_succeeds op _,wire.request.parse_serialize op⟩

end

def passedOn : List Request := [⟨9,"k",true⟩,⟨9,"k",false⟩,⟨4,"k",true⟩]

def lockedAgain : List Request := [⟨9,"k",true⟩,⟨9,"k",false⟩,⟨9,"k",true⟩]

theorem respects_pair : Respects [⟨9,"k",true⟩,⟨9,"k",false⟩] :=
  .unlock (.lock .nil (.inl rfl)) (by decide)

theorem passedOn_respects : Respects passedOn := .lock respects_pair (.inl (by decide))

theorem lockedAgain_respects : Respects lockedAgain := .lock respects_pair (.inl (by decide))

theorem rebuilds_passed_on : Respects passedOn ∧ Records plainText (recordOf plainText passedOn) passedOn ∧
    Rebuilds plainText (recordOf plainText passedOn) passedOn := by
  refine ⟨passedOn_respects,records_recordOf passedOn,?_⟩
  refine (rebuilds_iff_one_unlocker plainText _ passedOn passedOn_respects (records_recordOf passedOn)).mpr fun key => ⟨?_,?_⟩
  · intro a b one two
    have nine {c : Nat} (freed : ⟨c,key,false⟩ ∈ passedOn) : c = 9 ∧ key = "k" := by simpa [passedOn] using freed
    rw [(nine one).1,(nine two).1]
  intro c holds a freed
  rw [lastLocks_iff passedOn_respects] at holds
  obtain ⟨rfl,rfl⟩ : a = 9 ∧ key = "k" := by simpa [passedOn] using freed
  have four : holder passedOn "k" = some 4 := by decide
  cases four.symm.trans holds
  decide

-- In both sets, the client is taken for one that has let go.
theorem holder_in_both_sets_forgotten : Respects lockedAgain ∧ Records plainText (recordOf plainText lockedAgain) lockedAgain ∧
    LastLocks lockedAgain "k" 9 ∧ (sync plainText .empty (recordOf plainText lockedAgain)).find "k" = none ∧
    ¬ Rebuilds plainText (recordOf plainText lockedAgain) lockedAgain := by
  have lost : (syncAsserting plainText .filled (recordOf plainText lockedAgain)).map (fun locks => locks.find "k") = some none := by
    decide +kernel
  have last : LastLocks lockedAgain "k" 9 := rfl
  refine ⟨lockedAgain_respects,records_recordOf lockedAgain,last,by decide +kernel,fun rebuilds => ?_⟩
  obtain ⟨locks,done,assigned⟩ := rebuilds .filled
  rw [done,Option.map_some,(assigned "k" 9).mpr last] at lost
  cases lost

end DbExp.Tapir.Lock
