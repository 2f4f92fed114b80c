import DbExp.Foundation.LockLine

namespace DbExp.Serial
open Function
open LockLine
open List

structure Txn (κ ν : Type) where
  reads : List κ
  writes : List (κ × (List ν → ν))

section
variable {κ ν : Type}

namespace Txn

def observe (t : Txn κ ν) (db : κ → ν) : List ν := t.reads.map db

def effects (t : Txn κ ν) (seen : List ν) : List (κ × ν) := t.writes.map fun w => (w.1,w.2 seen)

def written (t : Txn κ ν) : List κ := t.writes.map Prod.fst

theorem observe_congr {t : Txn κ ν} {db other : κ → ν} (same : ∀ k ∈ t.reads, db k = other k) :
    t.observe db = t.observe other := map_congr_left same

theorem effects_keys (t : Txn κ ν) (seen : List ν) : (t.effects seen).map Prod.fst = t.written := by
  simp [effects,written]

end Txn

variable [DecidableEq κ]

def install (db : κ → ν) (writes : List (κ × ν)) : κ → ν := writes.foldl (fun db w => update db w.1 w.2) db

theorem install_snoc (db : κ → ν) (writes : List (κ × ν)) (w : κ × ν) :
    install db (writes ++ [w]) = update (install db writes) w.1 w.2 := by
  simp [install]

theorem install_append (db : κ → ν) (one two : List (κ × ν)) : install db (one ++ two) = install (install db one) two := by
  simp [install]

theorem install_other {db : κ → ν} {writes : List (κ × ν)} (other : k ∉ writes.map Prod.fst) : install db writes k = db k := by
  induction writes generalizing db with
  | nil => rfl
  | cons w rest ih =>
    rw [map_cons,mem_cons,not_or] at other
    change install (update db w.1 w.2) rest k = db k
    rw [ih other.2,update_of_ne other.1]

theorem install_congr {db base : κ → ν} {writes : List (κ × ν)} (mine : k ∈ writes.map Prod.fst ∨ db k = base k) :
    install db writes k = install base writes k := by
  induction writes generalizing db base with
  | nil => exact mine.resolve_left (by simp)
  | cons w rest ih =>
    change install (update db w.1 w.2) rest k = install (update base w.1 w.2) rest k
    apply ih
    by_cases later : k ∈ rest.map Prod.fst
    · exact .inl later
    right
    by_cases here : k = w.1
    · subst here; simp
    · rw [update_of_ne here,update_of_ne here]
      exact mine.resolve_left (by simp [here,later])

theorem install_mem {db : κ → ν} {writes : List (κ × ν)} (once : (writes.map Prod.fst).Nodup) (mem : (k,v) ∈ writes) :
    install db writes k = v := by
  obtain ⟨_,after,rfl⟩ := append_of_mem mem
  have later : k ∉ after.map Prod.fst := by
    rw [map_append,map_cons] at once
    exact (nodup_cons.mp (nodup_append.mp once).2.1).1
  rw [install_append]
  change install (update _ k v) after k = v
  rw [install_other later,update_self]

def execute (t : Txn κ ν) (db : κ → ν) : κ → ν := install db (t.effects (t.observe db))

theorem execute_other {t : Txn κ ν} (other : k ∉ t.written) : execute t db k = db k :=
  install_other (by rwa [t.effects_keys])

def serial (order : List (Txn κ ν)) (db : κ → ν) : κ → ν := order.foldl (fun db t => execute t db) db

def observations : List (Txn κ ν) → (κ → ν) → List (List ν)
  | [],_ => []
  | t :: rest,db => t.observe db :: observations rest (execute t db)

theorem observations_get (order : List (Txn κ ν)) (db : κ → ν) (i : Nat) :
    (observations order db)[i]? = order[i]?.map fun t => t.observe (serial (order.take i) db) := by
  induction order generalizing db i with
  | nil => simp [observations]
  | cons t rest ih =>
    cases i with
    | zero => rfl
    | succ i =>
      rw [observations,List.getElem?_cons_succ,ih,List.getElem?_cons_succ]
      rfl

-- Transactions that all read one database have a serial order if in that order
-- nobody writes what a later one reads.
theorem serial_snapshot (order : List (Txn κ ν)) (base : κ → ν) {db : κ → ν} (unread : ∀ t u, [t,u] <+ order → ∀ k ∈ u.reads, k ∉ t.written)
    (same : ∀ t ∈ order, ∀ k ∈ t.reads, db k = base k) :
    observations order db = order.map (fun t => t.observe base) ∧
      serial order db = install db (order.flatMap fun t => t.effects (t.observe base)) := by
  induction order generalizing db with
  | nil => exact ⟨rfl,rfl⟩
  | cons t rest ih =>
    have seen : t.observe db = t.observe base := t.observe_congr (same t (by simp))
    have left : ∀ u ∈ rest, ∀ k ∈ u.reads, execute t db k = base k := by
      intro u mem k reads
      rw [execute_other (unread t u (pair_cons.mpr (.inl ⟨rfl,mem⟩)) k reads)]
      exact same u (.tail _ mem) k reads
    obtain ⟨values,final⟩ := ih (fun a b pair => unread a b (pair_cons.mpr (.inr pair))) left
    refine ⟨?_,?_⟩
    · rw [observations,values,seen]; rfl
    · change serial rest (execute t db) = _
      rw [final,flatMap_cons,install_append,execute,seen]

theorem install_flatMap {order : List α} {writes : α → List (κ × ν)} (mem : t ∈ order)
    (alone : ∀ u ∈ order, u ≠ t → k ∉ (writes u).map Prod.fst) (once : order.Nodup) :
    install db (order.flatMap writes) k = install db (writes t) k := by
  induction order generalizing db with
  | nil => cases mem
  | cons u rest ih =>
    obtain ⟨fresh,once⟩ := nodup_cons.mp once
    rw [flatMap_cons,install_append]
    rcases mem_cons.mp mem with rfl | later
    · apply install_other
      intro inside
      obtain ⟨w,mem,same⟩ := mem_map.mp inside
      obtain ⟨v,there,wrote⟩ := mem_flatMap.mp mem
      exact alone v (.tail _ there) (by rintro rfl; exact fresh there) (mem_map.mpr ⟨w,wrote,same⟩)
    · rw [ih later (fun v there => alone v (.tail _ there)) once]
      exact install_congr (.inr (install_other (alone u (by simp) (by rintro rfl; exact fresh later))))

theorem install_flatMap_none {order : List α} {writes : α → List (κ × ν)} (none : ∀ u ∈ order, k ∉ (writes u).map Prod.fst) :
    install db (order.flatMap writes) k = db k := by
  apply install_other
  intro inside
  obtain ⟨w,mem,same⟩ := mem_map.mp inside
  obtain ⟨v,there,wrote⟩ := mem_flatMap.mp mem
  exact none v there (mem_map.mpr ⟨w,wrote,same⟩)

end
end DbExp.Serial
