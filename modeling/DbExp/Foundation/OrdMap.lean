import Mathlib

namespace DbExp
open List (mem_cons pairwise_cons mem_cons_self map_cons sum_cons)

-- A finite map held as its entries in increasing key order, so that walking the
-- entries is walking the keys in order and two maps with equal lookups are equal.
structure OrdMap (κ ν : Type) [LinearOrder κ] where
  entries : List (κ × ν)
  sorted : entries.Pairwise (fun a b => a.1 < b.1)

namespace OrdMap
variable {κ ν : Type} [LinearOrder κ]

instance [DecidableEq ν] : DecidableEq (OrdMap κ ν) := fun a b =>
  decidable_of_iff (a.entries = b.entries) ⟨fun same => by cases a; cases b; cases same; rfl,fun same => by rw [same]⟩

def lookup (k : κ) : List (κ × ν) → Option ν
  | [] => none
  | (a,v) :: rest => if a = k then some v else lookup k rest

def put (k : κ) (v : ν) : List (κ × ν) → List (κ × ν)
  | [] => [(k,v)]
  | (a,w) :: rest =>
    if k < a then (k,v) :: (a,w) :: rest
    else if k = a then (k,v) :: rest
    else (a,w) :: put k v rest

theorem mem_put {xs : List (κ × ν)} (present : x ∈ put k v xs) : x = (k,v) ∨ x ∈ xs := by
  induction xs with
  | nil => exact .inl (by simpa [put] using present)
  | cons head rest ih =>
    obtain ⟨_,_⟩ := head
    unfold put at present
    split at present
    · simpa using present
    split at present
    · rcases mem_cons.mp present with here | there
      · exact .inl here
      · exact .inr (.tail _ there)
    rcases mem_cons.mp present with here | there
    · exact .inr (by simp [here])
    · rcases ih there with new | old
      · exact .inl new
      · exact .inr (.tail _ old)

theorem put_sorted {xs : List (κ × ν)} (sorted : xs.Pairwise (fun a b => a.1 < b.1)) :
    (put k v xs).Pairwise (fun a b => a.1 < b.1) := by
  induction xs with
  | nil => simp [put]
  | cons head rest ih =>
    obtain ⟨a,_⟩ := head
    obtain ⟨above,tail⟩ := pairwise_cons.mp sorted
    unfold put
    split
    next less =>
      refine pairwise_cons.mpr ⟨?_,sorted⟩
      intro x mem
      rcases mem_cons.mp mem with rfl | old
      · exact less
      · exact less.trans (above x old)
    next notLess =>
      split
      next equal =>
        subst equal
        exact pairwise_cons.mpr ⟨above,tail⟩
      rename_i different
      refine pairwise_cons.mpr ⟨?_,ih tail⟩
      intro x mem
      rcases mem_put mem with rfl | old
      · exact lt_of_le_of_ne (not_lt.mp notLess) (Ne.symm different)
      · exact above x old

theorem lookup_put (k j : κ) (v : ν) (xs : List (κ × ν)) :
    lookup j (put k v xs) = if k = j then some v else lookup j xs := by
  induction xs with
  | nil => simp [put,lookup]
  | cons head rest ih =>
    obtain ⟨a,_⟩ := head
    unfold put
    split
    · simp [lookup]
    split
    next equal =>
      subst equal
      by_cases same : k = j <;> simp [lookup,same]
    next different =>
      by_cases same : a = j
      · subst same; simp [lookup,different]
      · simp [lookup,same,ih]

theorem lookup_mem {xs : List (κ × ν)} (got : lookup k xs = some v) : (k,v) ∈ xs := by
  induction xs with
  | nil => cases got
  | cons head rest ih =>
    obtain ⟨_,_⟩ := head
    unfold lookup at got
    split at got
    · rename_i same; cases got; subst same; exact mem_cons_self
    · exact .tail _ (ih got)

theorem mem_lookup {xs : List (κ × ν)} (sorted : xs.Pairwise (fun a b => a.1 < b.1))
    (mem : (k,v) ∈ xs) : lookup k xs = some v := by
  induction xs with
  | nil => cases mem
  | cons head rest ih =>
    obtain ⟨a,_⟩ := head
    obtain ⟨above,tail⟩ := pairwise_cons.mp sorted
    rcases mem_cons.mp mem with here | there
    · cases here; simp [lookup]
    · have less : a < k := above _ there
      simpa [lookup,less.ne] using ih tail there

def empty : OrdMap κ ν := ⟨[],List.Pairwise.nil⟩

section
variable (m : OrdMap κ ν)

def find (k : κ) : Option ν := lookup k m.entries

def insert (k : κ) (v : ν) : OrdMap κ ν := ⟨put k v m.entries,put_sorted m.sorted⟩

def erase (k : κ) : OrdMap κ ν :=
  ⟨m.entries.filter (fun e => e.1 ≠ k),m.sorted.filter _⟩

def size : Nat := m.entries.length

def keys : Finset κ := (m.entries.map Prod.fst).toFinset

@[simp] theorem find_empty (k : κ) : (empty : OrdMap κ ν).find k = none := rfl

@[simp] theorem find_insert (k j : κ) (v : ν) :
    (m.insert k v).find j = if k = j then some v else m.find j := lookup_put k j v m.entries

end

theorem mem_entries {m : OrdMap κ ν} : (k,v) ∈ m.entries ↔ m.find k = some v :=
  ⟨mem_lookup m.sorted,lookup_mem⟩

@[simp] theorem find_erase (m : OrdMap κ ν) (k j : κ) :
    (m.erase k).find j = if k = j then none else m.find j := by
  apply Option.ext
  intro v
  rw [← mem_entries]
  by_cases same : k = j
  · subst same; simp [erase]
  · simp [erase,same,mem_entries,Ne.symm same]

theorem mem_keys {m : OrdMap κ ν} : k ∈ m.keys ↔ ∃ v, m.find k = some v := by
  simp [keys,← mem_entries]

theorem card_keys (m : OrdMap κ ν) : m.keys.card = m.size := by
  have distinct : (m.entries.map Prod.fst).Nodup := by
    rw [List.nodup_iff_pairwise_ne,List.pairwise_map]
    exact m.sorted.imp ne_of_lt
  simpa [keys,size] using List.toFinset_card_of_nodup distinct

theorem foldl_lookup {xs : List (κ × ν)} (sorted : xs.Pairwise (fun a b => a.1 < b.1)) (step : β → κ × ν → β)
    (view : β → γ) (act : γ → ν → γ) (here : ∀ b v, (k,v) ∈ xs → view (step b (k,v)) = act (view b) v)
    (apart : ∀ b j v, (j,v) ∈ xs → j ≠ k → view (step b (j,v)) = view b) (b : β) :
    view (xs.foldl step b) = (lookup k xs).elim (view b) (act (view b)) := by
  induction xs generalizing b with
  | nil => rfl
  | cons head rest ih =>
    obtain ⟨a,w⟩ := head
    obtain ⟨above,tail⟩ := pairwise_cons.mp sorted
    rw [List.foldl_cons,ih tail (fun b v mem => here b v (.tail _ mem))
      (fun b j v mem => apart b j v (.tail _ mem))]
    by_cases same : a = k
    · subst same
      have absent : lookup a rest = none :=
        Option.eq_none_iff_forall_ne_some.mpr fun v got => lt_irrefl a (above _ (lookup_mem got))
      simp [lookup,absent,here b w mem_cons_self]
    · simp [lookup,same,apart b a w mem_cons_self same]

theorem foldl_view (m : OrdMap κ ν) (k : κ) (step : β → κ × ν → β) (view : β → γ) (act : γ → ν → γ)
    (here : ∀ b v, m.find k = some v → view (step b (k,v)) = act (view b) v)
    (apart : ∀ b j v, m.find j = some v → j ≠ k → view (step b (j,v)) = view b) (b : β) :
    view (m.entries.foldl step b) = (m.find k).elim (view b) (act (view b)) :=
  foldl_lookup m.sorted step view act (fun b v mem => here b v (mem_entries.mp mem))
    (fun b j v mem => apart b j v (mem_entries.mp mem)) b

theorem foldl_absent {m : OrdMap κ ν} (absent : m.find k = none) (step : β → κ × ν → β) (view : β → γ)
    (apart : ∀ b j v, j ≠ k → view (step b (j,v)) = view b) (b : β) : view (m.entries.foldl step b) = view b := by
  rw [m.foldl_view k step view (fun was _ => was) (fun b v got => by rw [absent] at got; cases got)
    (fun b j v _ other => apart b j v other),absent]
  rfl

def tally (ks : List κ) : OrdMap κ Nat := ks.foldl (fun m k => m.insert k ((m.find k).getD 0 + 1)) .empty

theorem tally_append (ks : List κ) (last : κ) :
    tally (ks ++ [last]) = (tally ks).insert last (((tally ks).find last).getD 0 + 1) := by
  simp [tally,List.foldl_append]

theorem find_tally (ks : List κ) (k : κ) : (tally ks).find k = if ks.count k = 0 then none else some (ks.count k) := by
  induction ks using List.reverseRecOn with
  | nil => rfl
  | append_singleton ks last ih =>
    rw [tally_append,find_insert]
    by_cases same : last = k
    · subst same
      rw [ih,if_pos rfl,List.count_append,List.count_singleton_self]
      by_cases none_yet : ks.count last = 0 <;> simp [none_yet]
    · simp [same,ih,List.count_append]

theorem mem_tally {ks : List κ} (mem : (k,count) ∈ (tally ks).entries) : count = ks.count k := by
  have got := mem_entries.mp mem
  rw [find_tally] at got
  split at got
  · cases got
  · cases got; rfl

def weight (p : κ → Bool) (xs : List (κ × Nat)) : Nat := (xs.map (fun e => if p e.1 then e.2 else 0)).sum

theorem weight_put (p : κ → Bool) {xs : List (κ × Nat)} (sorted : xs.Pairwise (fun a b => a.1 < b.1)) (k : κ) (v : Nat) :
    weight p (put k v xs) + (if p k then (lookup k xs).getD 0 else 0) = weight p xs + (if p k then v else 0) := by
  induction xs with
  | nil => simp [put,lookup,weight]
  | cons head rest ih =>
    obtain ⟨a,w⟩ := head
    obtain ⟨above,tail⟩ := pairwise_cons.mp sorted
    have before := ih tail
    unfold weight at *
    unfold put
    split
    next less =>
      have absent : lookup k ((a,w) :: rest) = none := by
        refine Option.eq_none_iff_forall_ne_some.mpr fun x got => ?_
        rcases mem_cons.mp (lookup_mem got) with here | there
        · cases here; exact lt_irrefl k less
        · exact lt_irrefl k (less.trans (above _ there))
      simp only [absent,map_cons,sum_cons,Option.getD_none,ite_self]
      omega
    · split
      next equal =>
        subst equal
        simp only [lookup,map_cons,sum_cons,if_true,Option.getD_some]
        omega
      next different =>
        simp only [lookup,Ne.symm different,map_cons,sum_cons,if_false]
        omega

theorem weight_tally (p : κ → Bool) (ks : List κ) : weight p (tally ks).entries = ks.countP p := by
  induction ks using List.reverseRecOn with
  | nil => rfl
  | append_singleton ks last ih =>
    have grown := weight_put p (tally ks).sorted last (((tally ks).find last).getD 0 + 1)
    rw [tally_append]
    change weight p (put last _ (tally ks).entries) = _
    unfold find at *
    rw [List.countP_append,← ih,List.countP_singleton]
    split at grown
    · simp_all; omega
    · simp_all

end OrdMap
end DbExp
