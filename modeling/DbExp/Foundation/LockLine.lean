import Mathlib.Tactic

namespace DbExp.LockLine
open List

-- A line of read and write requests for one resource, oldest first. A request is
-- blocked by every older one it clashes with; those not blocked hold the resource.
inductive Mode where
  | read
  | write
  deriving DecidableEq, Repr

structure Request (τ : Type) where
  mode : Mode
  txn : τ
  deriving DecidableEq, Repr

def Clash (x y : Mode) : Prop := x = .write ∨ y = .write

instance (x y : Mode) : Decidable (Clash x y) := inferInstanceAs (Decidable (_ ∨ _))

def Blocked (line : List (Request τ)) (t : τ) : Prop := ∃ x y, [x,y] <+ line ∧ y.txn = t ∧ Clash x.mode y.mode

def Distinct (line : List (Request τ)) : Prop := (line.map Request.txn).Nodup

theorem pair_cons : [a,b] <+ x :: l ↔ a = x ∧ b ∈ l ∨ [a,b] <+ l := by
  constructor
  · intro inside
    rcases sublist_cons_iff.mp inside with rest | ⟨_,same,rest⟩
    · exact .inr rest
    · cases same
      exact .inl ⟨rfl,singleton_sublist.mp rest⟩
  · rintro (⟨rfl,mem⟩ | rest)
    · exact cons_sublist_cons.mpr (singleton_sublist.mpr mem)
    · exact rest.cons x

theorem pair_append : [a,b] <+ l ++ m ↔ [a,b] <+ l ∨ a ∈ l ∧ b ∈ m ∨ [a,b] <+ m := by
  induction l with
  | nil => simp
  | cons x l ih =>
    rw [cons_append,pair_cons,pair_cons,ih,mem_append,mem_cons]
    tauto

theorem pair_snoc : [a,b] <+ l ++ [x] ↔ [a,b] <+ l ∨ a ∈ l ∧ b = x := by
  rw [pair_append,mem_singleton]
  tauto

theorem pair_filterMap {f : α → Option β} :
    [x,y] <+ l.filterMap f ↔ ∃ a b, [a,b] <+ l ∧ f a = some x ∧ f b = some y := by
  induction l with
  | nil => simp
  | cons c l ih =>
    have split : (∃ a b, [a,b] <+ c :: l ∧ f a = some x ∧ f b = some y) ↔
        (f c = some x ∧ ∃ b ∈ l, f b = some y) ∨ ∃ a b, [a,b] <+ l ∧ f a = some x ∧ f b = some y := by
      simp only [pair_cons]
      aesop
    rw [split,← ih]
    cases here : f c with
    | none => rw [filterMap_cons_none here]; simp
    | some z =>
      rw [filterMap_cons_some here,pair_cons,mem_filterMap,Option.some_inj,eq_comm]

theorem pair_map {f : α → β} : [x,y] <+ l.map f ↔ ∃ a b, [a,b] <+ l ∧ f a = x ∧ f b = y := by
  rw [← filterMap_eq_map,pair_filterMap]
  simp

theorem pair_filter {p : α → Bool} : [a,b] <+ l.filter p ↔ [a,b] <+ l ∧ p a ∧ p b := by
  rw [← filterMap_eq_filter,pair_filterMap]
  simp only [Option.guard_eq_some_iff]
  aesop

theorem pair_mem (pair : [a,b] <+ l) : a ∈ l ∧ b ∈ l :=
  ⟨pair.subset (by simp),pair.subset (by simp)⟩

theorem pair_ne (distinct : l.Nodup) (pair : [a,b] <+ l) : a ≠ b := by
  have := distinct.sublist pair
  simpa using this

section
variable {line rest : List (Request τ)} {x y target : Request τ}

theorem Blocked.mem (blocked : Blocked line t) : ∃ y ∈ line, y.txn = t := by
  obtain ⟨_,y,pair,same,_⟩ := blocked
  exact ⟨y,(pair_mem pair).2,same⟩

theorem blocked_snoc_other (other : x.txn ≠ t) : Blocked (line ++ [x]) t ↔ Blocked line t := by
  unfold Blocked
  constructor
  · rintro ⟨a,b,pair,same,clash⟩
    rcases pair_snoc.mp pair with old | ⟨_,rfl⟩
    · exact ⟨a,b,old,same,clash⟩
    · exact absurd same other
  · rintro ⟨a,b,pair,rest⟩
    exact ⟨a,b,pair_snoc.mpr (.inl pair),rest⟩

theorem blocked_snoc_self (fresh : ∀ y ∈ line, y.txn ≠ x.txn) :
    Blocked (line ++ [x]) x.txn ↔ ∃ y ∈ line, Clash y.mode x.mode := by
  constructor
  · rintro ⟨a,b,pair,same,clash⟩
    rcases pair_snoc.mp pair with old | ⟨mem,rfl⟩
    · exact absurd same (fresh b (pair_mem old).2)
    · exact ⟨a,mem,clash⟩
  · rintro ⟨y,mem,clash⟩
    exact ⟨y,x,pair_snoc.mpr (.inr ⟨mem,rfl⟩),rfl,clash⟩

theorem not_blocked_head (distinct : Distinct (x :: line)) : ¬ Blocked (x :: line) x.txn := by
  rintro ⟨_,b,pair,same,_⟩
  have later : b ∈ line := by
    rcases pair_cons.mp pair with ⟨_,mem⟩ | old
    · exact mem
    · exact (pair_mem old).2
  have fresh := (nodup_cons.mp distinct).1
  exact fresh (mem_map.mpr ⟨b,later,same⟩)

theorem Distinct.nodup (distinct : Distinct line) : line.Nodup := List.Nodup.of_map _ distinct

theorem Distinct.unique (distinct : Distinct line) (one : x ∈ line) (two : y ∈ line) (same : x.txn = y.txn) : x = y :=
  inj_on_of_nodup_map distinct one two same

theorem mem_leading_reads (distinct : line.Nodup) :
    y ∈ line.takeWhile (fun r => r.mode = .read) ↔ y ∈ line ∧ y.mode = .read ∧ ∀ x, [x,y] <+ line → x.mode = .read := by
  induction line with
  | nil => simp
  | cons z rest ih =>
    obtain ⟨fresh,distinct⟩ := nodup_cons.mp distinct
    by_cases reads : z.mode = .read
    · rw [takeWhile_cons_of_pos (by simpa using reads),mem_cons,mem_cons,ih distinct]
      constructor
      · rintro (rfl | ⟨mem,mine,front⟩)
        · refine ⟨.inl rfl,reads,?_⟩
          intro x pair
          rcases pair_cons.mp pair with ⟨_,mem⟩ | old
          · exact absurd mem fresh
          · exact absurd (pair_mem old).2 fresh
        refine ⟨.inr mem,mine,?_⟩
        intro x pair
        rcases pair_cons.mp pair with ⟨rfl,_⟩ | old
        · exact reads
        · exact front x old
      · rintro ⟨rfl | mem,mine,front⟩
        · exact .inl rfl
        · exact .inr ⟨mem,mine,fun x pair => front x (pair_cons.mpr (.inr pair))⟩
    rw [takeWhile_cons_of_neg (by simpa using reads)]
    constructor
    · intro mem; cases mem
    rintro ⟨mem,mine,front⟩
    rcases mem_cons.mp mem with rfl | later
    · exact absurd mine reads
    · exact absurd (front z (pair_cons.mpr (.inl ⟨rfl,later⟩))) reads

def holders : List (Request τ) → List τ
  | [] => []
  | x :: rest => if x.mode = .write then [x.txn] else ((x :: rest).takeWhile (fun r => r.mode = .read)).map Request.txn

theorem mem_holders (distinct : Distinct line) : t ∈ holders line ↔ (∃ y ∈ line, y.txn = t) ∧ ¬ Blocked line t := by
  cases line with
  | nil => simp [holders]
  | cons x rest =>
    by_cases writes : x.mode = .write
    · rw [holders,if_pos writes,mem_singleton]
      constructor
      · rintro rfl
        exact ⟨⟨x,by simp,rfl⟩,not_blocked_head distinct⟩
      rintro ⟨⟨y,mem,rfl⟩,free⟩
      rcases mem_cons.mp mem with rfl | later
      · rfl
      · exact absurd ⟨x,y,pair_cons.mpr (.inl ⟨rfl,later⟩),rfl,.inl writes⟩ free
    rw [holders,if_neg writes,mem_map]
    constructor
    · rintro ⟨y,leading,rfl⟩
      obtain ⟨mem,mine,front⟩ := (mem_leading_reads distinct.nodup).mp leading
      refine ⟨⟨y,mem,rfl⟩,?_⟩
      rintro ⟨a,_,pair,same,clash⟩
      obtain rfl := distinct.unique (pair_mem pair).2 mem same
      rcases clash with one | two
      · rw [front a pair] at one; cases one
      · rw [mine] at two; cases two
    rintro ⟨⟨y,mem,rfl⟩,free⟩
    have front : ∀ a, [a,y] <+ x :: rest → a.mode = .read ∧ y.mode = .read := by
      intro a pair
      by_contra clash
      refine free ⟨a,y,pair,rfl,?_⟩
      unfold Clash
      cases one : a.mode <;> cases two : y.mode <;> simp_all
    refine ⟨y,(mem_leading_reads distinct.nodup).mpr ⟨mem,?_,fun a pair => (front a pair).1⟩,rfl⟩
    rcases mem_cons.mp mem with rfl | later
    · cases kind : y.mode with
      | read => rfl
      | write => exact absurd kind writes
    · exact (front x (pair_cons.mpr (.inl ⟨rfl,later⟩))).2

theorem blocked_without (free : ¬ Blocked (front ++ target :: rest) target.txn) (other : target.txn ≠ t) :
    Blocked (front ++ target :: rest) t ↔
      Blocked (front ++ rest) t ∨ ∃ y ∈ rest, y.txn = t ∧ Clash target.mode y.mode := by
  unfold Blocked
  simp only [pair_append,pair_cons]
  constructor
  · rintro ⟨x,y,pair,same,clash⟩
    rcases pair with one | ⟨mem,two⟩ | ⟨rfl,mem⟩ | one
    · exact .inl ⟨x,y,.inl one,same,clash⟩
    · rcases mem_cons.mp two with rfl | later
      · exact absurd same other
      · exact .inl ⟨x,y,.inr (.inl ⟨mem,later⟩),same,clash⟩
    · exact .inr ⟨y,mem,same,clash⟩
    · exact .inl ⟨x,y,.inr (.inr one),same,clash⟩
  rintro (⟨x,y,pair,same,clash⟩ | ⟨y,mem,same,clash⟩)
  · refine ⟨x,y,?_,same,clash⟩
    rcases pair with one | ⟨mem,later⟩ | one
    · exact .inl one
    · exact .inr (.inl ⟨mem,.tail _ later⟩)
    · exact .inr (.inr (.inr one))
  · exact ⟨target,y,.inr (.inr (.inl ⟨rfl,mem⟩)),same,clash⟩

end
end DbExp.LockLine
