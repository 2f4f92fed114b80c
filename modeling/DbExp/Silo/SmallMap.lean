import DbExp.Foundation.Machine
import Mathlib

namespace DbExp.Silo.SmallMap
open Function

-- small_unordered_map.h. SmallSize, the hash function, and whether comparing keys is
-- expensive enough to compare their hashes first.
structure Config (κ : Type) where
  smallSize : Nat
  hash : κ → Nat
  checkHash : Bool

def Config.tableSize (c : Config κ) : Nat := 2 ^ Nat.clog 2 c.smallSize

structure Bucket (κ ν : Type) where
  bnext : Option Nat
  h : Nat
  key : κ
  value : ν

-- Buckets are known by their place in `smallElems`. std::unordered_map is a list of
-- entries in the order in which it is iterated.
structure Map (κ ν : Type) where
  n : Nat
  smallElems : Nat → Bucket κ ν
  table : Nat → Option Nat
  largeElems : Option (AList fun _ : κ => ν)

section
variable {κ ν : Type} [DecidableEq κ] [Inhabited ν] (c : Config κ) (m : Map κ ν)

-- The loop of find_bucket with so many buckets to go; `none` when it never ends.
def findFrom (k : κ) : Nat → Option Nat → Option (Option Nat)
  | _,none => some none
  | 0,some _ => none
  | left+1,some b =>
    if (!c.checkHash || (m.smallElems b).h == c.hash k) && (m.smallElems b).key == k then some (some b)
    else findFrom k left (m.smallElems b).bnext

def findBucket (k : κ) : Option (Option Nat) := findFrom c m k c.smallSize (m.table (c.hash k % c.tableSize))

def push (h : Nat) (k : κ) (v : ν) : Map κ ν :=
  {m with
    n := m.n + 1
    smallElems := update m.smallElems m.n ⟨m.table (h % c.tableSize),h,k,v⟩
    table := update m.table (h % c.tableSize) (some m.n)}

def store (b : Nat) (v : ν) : Map κ ν :=
  {m with smallElems := update m.smallElems b {m.smallElems b with value := v}}

def emplace (large : AList fun _ : κ => ν) (k : κ) (v : ν) : AList fun _ : κ => ν :=
  if k ∈ large then large else large.insert k v

-- The move to the heap. The buckets are destroyed, and `table` still points to them.
def grown (count : Nat) : AList fun _ : κ => ν :=
  (List.range count).foldl (fun large b => emplace large (m.smallElems b).key (m.smallElems b).value) ∅

def indexLarge (large : AList fun _ : κ => ν) (k : κ) (f : ν → ν) : AList fun _ : κ => ν :=
  large.insert k (f ((large.lookup k).getD default))

def index (k : κ) (f : ν → ν) : Option (Map κ ν) :=
  match m.largeElems with
  | some large => some {m with largeElems := some (indexLarge large k f)}
  | none => (findBucket c m k).map fun
    | some b => store m b (f (m.smallElems b).value)
    | none =>
      if m.n = c.smallSize then {m with
        n := 0
        largeElems := some (indexLarge (grown m c.smallSize) k f)}
      else push c m (c.hash k) k (f default)

def size : Nat :=
  match m.largeElems with
  | some large => large.entries.length
  | none => m.n

def entries : List (κ × ν) :=
  match m.largeElems with
  | some large => large.entries.map fun e => (e.1,e.2)
  | none => (List.range m.n).map fun b => ((m.smallElems b).key,(m.smallElems b).value)

-- find returns an iterator, and end() points to the bucket at place n: a key found
-- there is not found.
def find (k : κ) : Option (Option ν) :=
  match m.largeElems with
  | some large => some (large.lookup k)
  | none => (findBucket c m k).map fun found => (found.filter (· != m.n)).map fun b => (m.smallElems b).value

def clear : Map κ ν :=
  match m.largeElems with
  | some _ => {m with largeElems := none}
  | none => if m.n = 0 then m else {m with
      table := fun _ => none
      n := 0}

def assignFrom (that : Map κ ν) : Map κ ν :=
  match that.largeElems with
  | some large => {clear m with largeElems := some large}
  | none => (List.range that.n).foldl (fun m b => push c m (that.smallElems b).h (that.smallElems b).key (that.smallElems b).value) (clear m)

end

inductive Op (κ ν : Type) where
  | index (i : Nat) (k : κ) (f : ν → ν)
  | clear (i : Nat)
  | assign (i j : Nat)

section
variable {κ ν : Type} [DecidableEq κ] [Inhabited ν]

structure State (κ ν : Type) where
  maps : Nat → Map κ ν
  spec : Nat → κ → Option ν

section
variable (c : Config κ)

def step (s : State κ ν) : Op κ ν → Option (State κ ν)
  | .index i k f => (index c (s.maps i) k f).map fun m =>
    ⟨update s.maps i m,update s.spec i (update (s.spec i) k (some (f ((s.spec i k).getD default))))⟩
  | .clear i => some ⟨update s.maps i (clear (s.maps i)),update s.spec i fun _ => none⟩
  | .assign i j => if i = j then some s else
    some ⟨update s.maps i (assignFrom c (s.maps i) (s.maps j)),update s.spec i (s.spec j)⟩

def machine (junk : Nat → Nat → Bucket κ ν) : Machine (State κ ν) (Op κ ν) where
  initial := ⟨fun i => ⟨0,junk i,fun _ => none,none⟩,fun _ _ => none⟩
  step := step c

def Unused (m : Map κ ν) : Prop := m.largeElems.isSome → ∀ slot < c.tableSize, m.table slot = none

def ClearsUngrown (s : State κ ν) : Op κ ν → Prop
  | .index .. => True
  | .clear i => Unused c (s.maps i)
  | .assign i j => i = j ∨ Unused c (s.maps i)

instance (s : State κ ν) (op : Op κ ν) : Decidable (ClearsUngrown c s op) := by
  unfold ClearsUngrown Unused; split <;> infer_instance

end

structure Refines (c : Config κ) (m : Map κ ν) (spec : κ → Option ν) : Prop where
  finds : ∀ k, find c m k = some (spec k)
  indexes : ∀ k f, (index c m k f).isSome
  size : size m = {k | spec k ≠ none}.ncard
  once : ((entries m).map Prod.fst).Nodup
  visits : ∀ k v, (k,v) ∈ entries m ↔ spec k = some v

end

def latest (p : Nat → Prop) [DecidablePred p] : Nat → Option Nat
  | 0 => none
  | n+1 => if p n then some n else latest p n

section
variable {p q : Nat → Prop} [DecidablePred p] [DecidablePred q]

theorem latest_congr (same : ∀ b < n, p b ↔ q b) : latest p n = latest q n := by
  induction n with
  | zero => rfl
  | succ n ih => simp only [latest,same n (Nat.lt_succ_self n),ih fun b below => same b (Nat.lt_succ_of_lt below)]

theorem latest_some (got : latest p n = some b) : b < n ∧ p b := by
  induction n with
  | zero => cases got
  | succ n ih =>
    unfold latest at got
    split at got
    next holds =>
      cases got
      exact ⟨Nat.lt_succ_self _,holds⟩
    · exact ⟨Nat.lt_succ_of_lt (ih got).1,(ih got).2⟩

theorem latest_none : latest p n = none ↔ ∀ b < n, ¬ p b := by
  induction n with
  | zero => simp [latest]
  | succ n ih =>
    unfold latest
    split <;> grind

end

section
variable {κ ν : Type} [DecidableEq κ]

def slotOf (c : Config κ) (m : Map κ ν) (b : Nat) : Nat := (m.smallElems b).h % c.tableSize

-- The inline array: the chain of a slot goes through its buckets from the newest on.
structure Chained (c : Config κ) (m : Map κ ν) : Prop where
  bound : m.n ≤ c.smallSize
  heads : ∀ slot < c.tableSize, m.table slot = latest (slotOf c m · = slot) m.n
  links : ∀ b < m.n, (m.smallElems b).bnext = latest (slotOf c m · = slotOf c m b) b
  hashes : ∀ b < m.n, (m.smallElems b).h = c.hash (m.smallElems b).key
  distinct : ∀ b < m.n, ∀ a < b, (m.smallElems a).key ≠ (m.smallElems b).key

def bucketOf (m : Map κ ν) (k : κ) : Nat → Option Nat := latest fun b => (m.smallElems b).key = k

def held (m : Map κ ν) (count : Nat) (k : κ) : Option ν := (bucketOf m k count).map fun b => (m.smallElems b).value

def Sound (c : Config κ) (m : Map κ ν) (spec : κ → Option ν) : Prop :=
  match m.largeElems with
  | some large => m.n = 0 ∧ ∀ k, large.lookup k = spec k
  | none => Chained c m ∧ held m m.n = spec

variable {c : Config κ} {m that after : Map κ ν} {spec other : κ → Option ν} {k : κ} {f : ν → ν}

theorem sound_small (mode : m.largeElems = none) : Sound c m spec ↔ Chained c m ∧ held m m.n = spec := by
  simp only [Sound,mode]

theorem sound_large (mode : m.largeElems = some large) : Sound c m spec ↔ m.n = 0 ∧ ∀ k, large.lookup k = spec k := by
  simp only [Sound,mode]

theorem held_none : held m count k = none ↔ ∀ b < count, (m.smallElems b).key ≠ k := by
  rw [held,Option.map_eq_none_iff,bucketOf,latest_none]

theorem held_succ : held m (count + 1) k =
    if (m.smallElems count).key = k then some (m.smallElems count).value else held m count k := by
  simp only [held,bucketOf,latest]
  split <;> rfl

theorem held_congr (same : ∀ b < count, after.smallElems b = m.smallElems b) : held after count k = held m count k := by
  induction count with
  | zero => rfl
  | succ count ih => rw [held_succ,held_succ,same count (Nat.lt_succ_self count),ih fun b below => same b (Nat.lt_succ_of_lt below)]

section
variable (chained : Chained c m)
include chained

theorem Chained.find (k : κ) (count left : Nat) (inside : count ≤ m.n) (enough : count ≤ left) :
    findFrom c m k left (latest (slotOf c m · = c.hash k % c.tableSize) count) = some (bucketOf m k count) := by
  induction count generalizing left with
  | zero => cases left <;> rfl
  | succ count ih =>
    have hash := chained.hashes count (by omega)
    unfold bucketOf latest
    by_cases slot : slotOf c m count = c.hash k % c.tableSize
    · obtain ⟨left,rfl⟩ : ∃ l, left = l + 1 := ⟨left - 1,by omega⟩
      rw [if_pos slot,findFrom]
      by_cases same : (m.smallElems count).key = k
      · simp [same,hash]
      · rw [chained.links count (by omega),slot,ih left (by omega) (by omega)]
        simp [same,bucketOf]
    · have other : (m.smallElems count).key ≠ k := fun same => slot (by rw [slotOf,hash,same])
      rw [if_neg slot,if_neg other]
      exact ih left (by omega) (by omega)

theorem Chained.findBucket (k : κ) : findBucket c m k = some (bucketOf m k m.n) := by
  unfold SmallMap.findBucket
  rw [chained.heads _ (Nat.mod_lt _ (Nat.pow_pos (by decide)))]
  exact chained.find k m.n c.smallSize le_rfl chained.bound

theorem Chained.bucketOf_key (inside : b < m.n) : bucketOf m (m.smallElems b).key m.n = some b := by
  cases got : bucketOf m (m.smallElems b).key m.n with
  | none => exact absurd rfl (latest_none.mp got b inside)
  | some a =>
    obtain ⟨below,same⟩ := latest_some got
    rcases Nat.lt_trichotomy a b with less | rfl | more
    · exact absurd same (chained.distinct b inside a less)
    · rfl
    · exact absurd same.symm (chained.distinct a below b more)

theorem Chained.held_iff (k : κ) (v : ν) : held m m.n k = some v ↔ ∃ b < m.n, (m.smallElems b).key = k ∧ (m.smallElems b).value = v := by
  rw [held,Option.map_eq_some_iff]
  constructor
  · rintro ⟨b,got,value⟩
    obtain ⟨inside,same⟩ := latest_some got
    exact ⟨b,inside,same,value⟩
  · rintro ⟨b,inside,rfl,value⟩
    exact ⟨b,chained.bucketOf_key inside,value⟩

theorem Chained.push (room : m.n < c.smallSize) (fresh : held m m.n k = none) (v : ν) :
    Chained c (push c m (c.hash k) k v) ∧ held (push c m (c.hash k) k v) (m.n + 1) = update (held m m.n) k (some v) := by
  generalize become : SmallMap.push c m (c.hash k) k v = after
  have n : after.n = m.n + 1 := by rw [← become]; rfl
  have table : after.table = update m.table (c.hash k % c.tableSize) (some m.n) := by rw [← become]; rfl
  have new : after.smallElems m.n = ⟨m.table (c.hash k % c.tableSize),c.hash k,k,v⟩ := by
    rw [← become]
    exact update_self ..
  have old : ∀ b < m.n, after.smallElems b = m.smallElems b := by
    intro b below
    rw [← become]
    exact update_of_ne below.ne _ _
  have lower : ∀ slot, ∀ count ≤ m.n, latest (slotOf c after · = slot) count = latest (slotOf c m · = slot) count :=
    fun slot count inside => latest_congr fun b below => by rw [slotOf,old b (by omega),slotOf]
  -- The new bucket is the last one below the bound, all others are as they were.
  have split : ∀ {holds : Nat → Prop}, (∀ b < m.n, holds b) → holds m.n → ∀ b < after.n, holds b := by
    intro holds earlier last b below
    rcases Nat.lt_succ_iff_lt_or_eq.mp (n ▸ below) with less | rfl
    · exact earlier b less
    · exact last
  refine ⟨⟨by omega,fun slot inside => ?_,split (fun b below => ?_) ?_,split (fun b below => ?_) (by rw [new]),
    split (fun b below a less => ?_) fun a less => ?_⟩,funext fun j => ?_⟩
  · rw [n,table,latest,slotOf,new,lower slot m.n le_rfl]
    by_cases same : slot = c.hash k % c.tableSize
    · simp [same]
    · rw [update_of_ne same,if_neg (Ne.symm same),chained.heads slot inside]
  · rw [lower _ b below.le,slotOf,old b below]
    exact chained.links b below
  · rw [lower _ m.n le_rfl,slotOf,new]
    exact chained.heads _ (Nat.mod_lt _ (Nat.pow_pos (by decide)))
  · rw [old b below]
    exact chained.hashes b below
  · rw [old b below,old a (by omega)]
    exact chained.distinct b below a less
  · rw [old a less,new]
    exact held_none.mp fresh a less
  · rw [held_succ,new,held_congr old,update_apply]
    simp only [eq_comm]

theorem Chained.store (inside : b < m.n) (v : ν) :
    Chained c (store m b v) ∧ held (store m b v) m.n = update (held m m.n) (m.smallElems b).key (some v) := by
  generalize become : SmallMap.store m b v = after
  have other : ∀ a ≠ b, after.smallElems a = m.smallElems a := by
    intro a apart
    rw [← become]
    exact update_of_ne apart _ _
  have this : after.smallElems b = {m.smallElems b with value := v} := by
    rw [← become]
    exact update_self ..
  have fields : ∀ a, (after.smallElems a).bnext = (m.smallElems a).bnext ∧ (after.smallElems a).h = (m.smallElems a).h ∧
      (after.smallElems a).key = (m.smallElems a).key := by
    intro a
    by_cases hit : a = b
    · simp [hit,this]
    · simp [other a hit]
  have n : after.n = m.n := by rw [← become]; rfl
  have table : after.table = m.table := by rw [← become]; rfl
  refine ⟨?_,funext fun j => ?_⟩
  · obtain ⟨_,_⟩ := chained
    constructor <;> simpa only [slotOf,fields,n,table]
  have bucket : bucketOf after j m.n = bucketOf m j m.n := by simp only [bucketOf,fields]
  rw [held,bucket]
  by_cases hit : j = (m.smallElems b).key
  · simp [hit,chained.bucketOf_key inside,this]
  rw [update_of_ne hit,held]
  refine Option.map_congr fun a got => ?_
  rw [other a]
  rintro rfl
  exact hit (latest_some got).2.symm

theorem grown_absent (inside : count < m.n) (lookup : ∀ k, (grown m count).lookup k = held m count k) :
    (m.smallElems count).key ∉ grown m count := by
  rw [← AList.lookup_eq_none,lookup,held_none]
  exact chained.distinct count inside

theorem Chained.grown (count : Nat) (inside : count ≤ m.n) (k : κ) : (grown m count).lookup k = held m count k := by
  induction count generalizing k with
  | zero => rfl
  | succ count ih =>
    have step : SmallMap.grown m (count + 1) =
        emplace (SmallMap.grown m count) (m.smallElems count).key (m.smallElems count).value := by
      simp [SmallMap.grown,List.range_succ]
    rw [step,emplace,if_neg (grown_absent chained inside (ih (by omega))),held_succ]
    by_cases same : (m.smallElems count).key = k
    · subst same
      simp
    · rw [AList.lookup_insert_ne (Ne.symm same),ih (by omega),if_neg same]

theorem Chained.assign (that : Map κ ν) (copied : Chained c that) (small : m.largeElems = none) (blank : m.n = 0)
    (count : Nat) (inside : count ≤ that.n) (after : Map κ ν)
    (become : (List.range count).foldl (fun m b =>
      SmallMap.push c m (that.smallElems b).h (that.smallElems b).key (that.smallElems b).value) m = after) :
    Chained c after ∧ after.largeElems = none ∧ after.n = count ∧
      held after after.n = held that count := by
  induction count generalizing after with
  | zero =>
    cases become
    exact ⟨chained,small,blank,by rw [List.range_zero,List.foldl_nil,blank]; rfl⟩
  | succ count ih =>
    obtain ⟨before,none,n,holds⟩ := ih (by omega) _ rfl
    rw [List.range_succ,List.foldl_append,List.foldl_cons,List.foldl_nil,copied.hashes count inside] at become
    have fresh := congrFun holds (that.smallElems count).key
    rw [held_none.mpr (copied.distinct count inside)] at fresh
    obtain ⟨next,update⟩ := before.push (by have := copied.bound; omega) fresh (that.smallElems count).value
    subst become
    refine ⟨next,none,congrArg (· + 1) n,update.trans (funext fun k => ?_)⟩
    rw [holds,held_succ,update_apply]
    simp only [eq_comm]

end

theorem clear_sound (sound : Sound c m spec) (unused : Unused c m) :
    Chained c (clear m) ∧ (clear m).largeElems = none ∧ (clear m).n = 0 := by
  have blank : ∀ after : Map κ ν, after.n = 0 → (∀ slot < c.tableSize, after.table slot = none) → Chained c after := by
    intro after n table
    exact ⟨by omega,fun slot inside => by rw [table slot inside,n]; rfl,by omega,by omega,by omega⟩
  unfold clear
  split
  next mode =>
    have n := ((sound_large mode).mp sound).1
    exact ⟨blank _ n (unused (by simp [mode])),rfl,n⟩
  rename_i mode
  split
  next n =>
    exact ⟨((sound_small mode).mp sound).1,mode,n⟩
  · exact ⟨blank _ rfl fun _ _ => rfl,mode,rfl⟩

theorem assignFrom_sound (sound : Sound c m spec) (unused : Unused c m) (origin : Sound c that other) :
    Sound c (assignFrom c m that) other := by
  obtain ⟨chained,small,n⟩ := clear_sound sound unused
  unfold assignFrom
  split
  next mode =>
    exact (sound_large rfl).mpr ⟨n,((sound_large mode).mp origin).2⟩
  next mode =>
    obtain ⟨copied,holds⟩ := (sound_small mode).mp origin
    obtain ⟨after,small,_,same⟩ := chained.assign that copied small n that.n le_rfl _ rfl
    exact (sound_small small).mpr ⟨after,same.trans holds⟩

theorem index_sound [Inhabited ν] (sound : Sound c m spec) (stepped : index c m k f = some after) :
    Sound c after (update spec k (some (f ((spec k).getD default)))) := by
  have grows : ∀ large : AList fun _ : κ => ν, (∀ j, large.lookup j = spec j) → ∀ j,
      (indexLarge large k f).lookup j = update spec k (some (f ((spec k).getD default))) j := by
    intro large holds j
    unfold indexLarge
    by_cases same : j = k
    · subst same
      simp [holds]
    · rw [AList.lookup_insert_ne same,update_of_ne same,holds]
  unfold index at stepped
  split at stepped
  next large mode =>
    obtain ⟨n,holds⟩ := (sound_large mode).mp sound
    cases stepped
    exact (sound_large rfl).mpr ⟨n,grows large holds⟩
  rename_i mode
  obtain ⟨chained,holds⟩ := (sound_small mode).mp sound
  rw [chained.findBucket k,Option.map_some,Option.some.injEq] at stepped
  cases got : bucketOf m k m.n with
  | some b =>
    obtain ⟨inside,rfl⟩ := latest_some got
    simp only [got] at stepped
    subst stepped
    obtain ⟨next,update⟩ := chained.store inside (f (m.smallElems b).value)
    refine (sound_small (by exact mode)).mpr ⟨next,update.trans ?_⟩
    rw [← holds,held,got]
    rfl
  | none =>
    have fresh : held m m.n k = none := by rw [held,got]; rfl
    simp only [got] at stepped
    split at stepped
    next full =>
      subst stepped
      exact (sound_large rfl).mpr ⟨rfl,grows _ fun j => by rw [← full,chained.grown m.n le_rfl j,holds]⟩
    subst stepped
    obtain ⟨next,update⟩ := chained.push (by have := chained.bound; omega) fresh (f default)
    refine (sound_small (by exact mode)).mpr ⟨next,update.trans ?_⟩
    rw [← holds,fresh]
    rfl

theorem Sound.refines [Inhabited ν] (sound : Sound c m spec) : Refines c m spec := by
  have once : ((entries m).map Prod.fst).Nodup ∧ (∀ k v, (k,v) ∈ entries m ↔ spec k = some v) ∧ (entries m).length = size m := by
    unfold entries size
    split
    next large mode =>
      obtain ⟨_,holds⟩ := (sound_large mode).mp sound
      refine ⟨?_,fun k v => ?_,by simp⟩
      · rw [List.map_map]
        exact large.nodupKeys
      · rw [← holds k,← Option.mem_def,AList.mem_lookup_iff]
        simp [Sigma.exists]
    next mode =>
      obtain ⟨chained,holds⟩ := (sound_small mode).mp sound
      refine ⟨?_,fun k v => ?_,by simp⟩
      · rw [List.map_map]
        refine List.nodup_range.map_on fun a inside b below same => ?_
        have got := chained.bucketOf_key (List.mem_range.mp inside)
        rw [show (m.smallElems a).key = (m.smallElems b).key from same,chained.bucketOf_key (List.mem_range.mp below)] at got
        exact (Option.some.inj got).symm
      · rw [← holds,chained.held_iff]
        simp
  obtain ⟨nodup,visits,length⟩ := once
  refine ⟨fun k => ?_,fun k f => ?_,?_,nodup,visits⟩
  · unfold find
    split
    next mode =>
      rw [((sound_large mode).mp sound).2]
    next mode =>
      obtain ⟨chained,holds⟩ := (sound_small mode).mp sound
      have below : (bucketOf m k m.n).filter (· != m.n) = bucketOf m k m.n := by
        cases got : bucketOf m k m.n with
        | none => rfl
        | some b => simp [(latest_some got).1.ne]
      rw [chained.findBucket,Option.map_some,below,← holds]
      rfl
  · unfold index
    split
    · rfl
    next mode =>
      rw [((sound_small mode).mp sound).1.findBucket]
      rfl
  have keys : {k | spec k ≠ none} = ((entries m).map Prod.fst).toFinset := by
    ext k
    simp [visits,Option.ne_none_iff_exists']
  rw [keys,Set.ncard_coe_finset,List.toFinset_card_of_nodup nodup,List.length_map,length]

theorem step_sound [Inhabited ν] {s t : State κ ν} (sound : ∀ i, Sound c (s.maps i) (s.spec i))
    (allowed : ClearsUngrown c s op) (stepped : step c s op = some t) (i : Nat) : Sound c (t.maps i) (t.spec i) := by
  have update : ∀ {j m spec}, Sound c m spec → Sound c (update s.maps j m i) (update s.spec j spec i) := by
    intro j m spec after
    by_cases same : i = j
    · subst same
      simpa using after
    · simpa [update_of_ne same] using sound i
  cases op with
  | index j k f =>
    obtain ⟨after,indexed,rfl⟩ := Option.map_eq_some_iff.mp stepped
    exact update (index_sound (sound j) indexed)
  | clear j =>
    cases stepped
    obtain ⟨chained,small,n⟩ := clear_sound (sound j) allowed
    exact update ((sound_small small).mpr ⟨chained,by rw [n]; rfl⟩)
  | assign j k =>
    simp only [step] at stepped
    split at stepped
    · cases stepped
      exact sound i
    next apart =>
      cases stepped
      exact update (assignFrom_sound (sound j) (allowed.resolve_left apart) (sound k))

theorem refines_of_ungrown_clears [Inhabited ν] (c : Config κ) (junk : Nat → Nat → Bucket κ ν) (s : State κ ν)
    (reached : (machine c junk).Reached (ClearsUngrown c) s) (i : Nat) : Refines c (s.maps i) (s.spec i) := by
  have sound : ∀ i, Sound c (s.maps i) (s.spec i) := by
    refine Machine.Reached.invariant (m := machine c junk) (fun s => ∀ i, Sound c (s.maps i) (s.spec i)) ?_ ?_ reached
    · exact fun i => ⟨⟨Nat.zero_le _,fun _ _ => rfl,by simp [machine],by simp [machine],by simp [machine]⟩,rfl⟩
    · exact fun _ _ _ _ sound allowed stepped => step_sound sound allowed stepped
  exact (sound i).refines

end

def sample : Machine (State Nat Nat) (Op Nat Nat) := machine ⟨2,id,true⟩ fun _ _ => ⟨none,0,0,0⟩

theorem refines_after_growing : ∃ s, sample.Reached (ClearsUngrown ⟨2,id,true⟩) s ∧ (s.maps 0).largeElems.isSome ∧
    find ⟨2,id,true⟩ (s.maps 0) 3 = some (s.spec 0 3) := by
  obtain ⟨s,reached,seen⟩ := Machine.reached_of_run sample (ClearsUngrown ⟨2,id,true⟩) (fun s => (s.maps 0).largeElems.isSome)
    [.index 0 1 fun _ => 7,.clear 0,.index 0 2 fun _ => 8,.index 0 3 fun _ => 9,.index 0 4 fun _ => 6] (by decide +kernel)
  exact ⟨s,reached,seen,(refines_of_ungrown_clears _ _ s reached 0).finds 3⟩

theorem found_after_clear : ∃ s, sample.Reached Machine.anyStep s ∧
    s.spec 0 2 = none ∧ find ⟨2,id,true⟩ (s.maps 0) 2 = some (some 8) := by
  obtain ⟨s,reached,seen⟩ := Machine.reached_of_run sample Machine.anyStep
    (fun s => s.spec 0 2 = none ∧ find ⟨2,id,true⟩ (s.maps 0) 2 = some (some 8))
    [.index 0 1 fun _ => 7,.index 0 2 fun _ => 8,.index 0 3 fun _ => 9,.clear 0] (by decide +kernel)
  exact ⟨s,reached,seen⟩

end DbExp.Silo.SmallMap
