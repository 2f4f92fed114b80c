import DbExp.Silo.Tid
import DbExp.Silo.Ticker
import Mathlib.Data.List.Nodup

namespace DbExp.Silo
open Function List

-- One dbtuple of a version chain: the object, the id of its writer, and whether it marks a
-- logical delete. A chain is listed from its latest version on.
structure Version where
  tuple : Nat
  version : Nat
  deleting : Bool
  deriving DecidableEq, Repr

-- stable_read of a snapshot: the first version on the chain that is not later than the id.
def recordAt (tid : Nat) : List Version → Option Version
  | [] => none
  | v :: rest => if v.version ≤ tid then some v else recordAt tid rest

def walk (tid : Nat) : List Version → List Version
  | [] => []
  | v :: rest => if v.version ≤ tid then [v] else v :: walk tid rest

-- A reader starts at the tuple that it found in the tree, which may have been replaced there
-- since.
def fromTuple (tuple : Nat) (chain : List Version) : List Version := chain.dropWhile fun v => v.tuple != tuple

def canOverwriteRecordTid (multiplier prev cur : Nat) : Bool :=
  toReadOnlyTick multiplier (epochId prev) == toReadOnlyTick multiplier (epochId cur) || prev == minTid

-- write_record_at, with the version that is left behind the new one. The space in the tuple
-- is enough for a delete and, as fits says, for a value. An empty chain stands for the
-- tuple that the transaction inserted, which gets its id here.
def writeRecordAt (multiplier fresh tid : Nat) (delete fits : Bool) : List Version → List Version × Option Version
  | [] => ([⟨fresh,tid,delete⟩],none)
  | head :: rest =>
    if canOverwriteRecordTid multiplier head.version tid && !head.deleting then
      if delete || fits then ({ head with version := tid, deleting := delete } :: rest,none)
      else (⟨fresh,tid,delete⟩ :: head :: rest,some head)
    else if (delete || fits) && !head.deleting then
      -- the old value moves to a new object and the tuple takes the new one
      (⟨head.tuple,tid,delete⟩ :: { head with tuple := fresh } :: rest,some { head with tuple := fresh })
    else (⟨fresh,tid,delete⟩ :: head :: rest,some head)

structure DeleteEntry where
  chain : Nat
  tuple : Nat
  tick : Nat
  logical : Bool
  deriving DecidableEq, Repr

def onDbtupleSpill (multiplier chain tid : Nat) : Option Version → List DeleteEntry
  | none => []
  | some rest => if rest.deleting then [] else [⟨chain,rest.tuple,toReadOnlyTick multiplier (epochId tid),false⟩]

-- Nothing is filed for a tuple that was inserted empty.
def onLogicalDelete (multiplier chain tid : Nat) (before : List Version) : List Version → List DeleteEntry
  | [] => []
  | head :: _ => if head.deleting ∧ before ≠ [] then [⟨chain,head.tuple,toReadOnlyTick multiplier (epochId tid),true⟩] else []

structure GcConfig where
  cores : Nat
  multiplier : Nat
  coresFit : cores ≤ coreMask + 1
  positive : 0 < multiplier

-- Chains are numbered: a key that is removed from its tree and inserted again gets a new
-- one, and a reader that still holds the old head walks the old chain.
structure GcState where
  ticker : Ticker
  chains : Nat → List Version
  removed : Nat → Bool
  nextTuple : Nat
  commitTid : Nat → Option Nat
  snapshots : Nat → List Nat
  found : Nat → List (Nat × Nat)
  queue : Nat → List DeleteEntry
  scratch : Nat → List DeleteEntry
  lastReaped : Nat → Nat
  freed : List DeleteEntry

inductive GcAct where
  | tick (a : TickerAct)
  | snapshot (core : Nat)
  | lookup (core chain : Nat)
  | genCommitTid (core num : Nat)
  | write (core chain : Nat) (delete fits : Bool)
  | collect (core : Nat)
  | reap (core : Nat)
  deriving DecidableEq, Repr

namespace Gc
variable (cfg : GcConfig)

def initial : GcState :=
  ⟨Ticker.initial,fun _ => [],fun _ => false,0,fun _ => none,fun _ => [],fun _ => [],fun _ => [],fun _ => [],fun _ => 0,[]⟩

section
variable (s : GcState)

def guarded (core : Nat) : Bool :=
  match s.ticker.phase core with
  | .inside _ _ => true
  | _ => false

def write (core chain tid : Nat) (delete fits : Bool) : GcState :=
  let (after,rest) := writeRecordAt cfg.multiplier s.nextTuple tid delete fits (s.chains chain)
  { s with
    chains := update s.chains chain after
    nextTuple := s.nextTuple + 1
    queue := update s.queue core
      (s.queue core ++ onDbtupleSpill cfg.multiplier chain tid rest ++ onLogicalDelete cfg.multiplier chain tid (s.chains chain) after) }

def collect (core : Nat) : Option GcState :=
  let roTickEx := toReadOnlyTick cfg.multiplier (s.ticker.globalLastTickExclusive - 1)
  if roTickEx = 0 then none
  else
    let roTickGeq := roTickEx - 1
    if s.lastReaped core = roTickGeq then none
    else some { s with
      lastReaped := update s.lastReaped core roTickGeq
      scratch := update s.scratch core ((s.queue core).takeWhile fun e => decide (e.tick ≤ roTickGeq))
      queue := update s.queue core ((s.queue core).dropWhile fun e => decide (e.tick ≤ roTickGeq)) }

def isLatest (e : DeleteEntry) : Bool :=
  !s.removed e.chain && decide (((s.chains e.chain).head?.map Version.tuple) = some e.tuple)

-- One entry of that loop: a spilled version is freed; a deleted tuple is taken out of its
-- tree, or put on the queue again as a spilled version when a new one is in front of it.
def reapEntry (core : Nat) (e : DeleteEntry) : GcState :=
  if e.logical then
    if isLatest s e then { s with removed := update s.removed e.chain true }
    else { s with
      queue := update s.queue core
        (s.queue core ++ [{ e with tick := toReadOnlyTick cfg.multiplier s.ticker.currentTick, logical := false }]) }
  else { s with freed := e :: s.freed }

-- The end of a core's outermost guard ends its snapshots and its commit, and no tuple that
-- was found under the guard is used after it.
def leftBy (a : TickerAct) : GcState :=
  match a with
  | .leave c => if guarded s c then s else
    { s with
      snapshots := update s.snapshots c []
      found := update s.found c []
      commitTid := update s.commitTid c none }
  | _ => s

def step : GcAct → Option GcState
  | .tick a => (s.ticker.step cfg.cores a).map fun ticker => leftBy { s with ticker := ticker } a
  | .snapshot c =>
    if guarded s c then
      some { s with snapshots := update s.snapshots c (s.ticker.globalLastTickExclusive :: s.snapshots c) }
    else none
  | .lookup c k =>
    match s.chains k with
    | [] => none
    | head :: _ =>
      if guarded s c ∧ s.removed k = false then
        some { s with found := update s.found c ((k,head.tuple) :: s.found c) }
      else none
  | .genCommitTid c num =>
    if guarded s c ∧ num ≤ maxNumId then
      some { s with commitTid := update s.commitTid c (some (makeTid c num s.ticker.currentTick)) }
    else none
  | .write c k delete fits =>
    match s.commitTid c with
    | none => none
    | some tid => if s.removed k then none else some (write cfg s c k tid delete fits)
  | .collect c => if s.ticker.phase c = .outside ∧ s.scratch c = [] then collect cfg s c else none
  | .reap c =>
    match s.scratch c with
    | [] => none
    | e :: rest => some (reapEntry cfg { s with scratch := update s.scratch c rest } c e)

end

def machine : Machine GcState GcAct := ⟨initial,step cfg⟩

end Gc

theorem recordAt_walk (got : recordAt tid chain = some v) : v ∈ walk tid chain := by
  induction chain with
  | nil => cases got
  | cons head rest ih =>
    simp only [recordAt] at got
    simp only [walk]
    split at got
    next visible =>
      cases got
      rw [if_pos visible]
      exact mem_singleton_self _
    next hidden =>
      rw [if_neg hidden]
      exact mem_cons_of_mem head (ih got)

theorem walk_stops {pred : Version} (visible : pred.version ≤ tid) (touched : v ∈ walk tid (front ++ pred :: rest)) : v ∈ front ++ [pred] := by
  induction front with
  | nil =>
    simp only [nil_append,walk,if_pos visible] at touched
    exact touched
  | cons head front ih =>
    simp only [cons_append,walk] at touched
    split at touched
    · rw [mem_singleton.mp touched]
      exact mem_cons_self
    rcases mem_cons.mp touched with same | later
    · rw [same]
      exact mem_cons_self
    · exact mem_cons_of_mem head (ih later)

def Covered (multiplier : Nat) (chain : List Version) (tuple tick : Nat) : Prop :=
  ∃ front pred old rest, chain = front ++ pred :: old :: rest ∧ old.tuple = tuple ∧
    toReadOnlyTick multiplier (epochId pred.version) ≤ tick

def OutOfReach (tid : Nat) (chain : List Version) (tuple : Nat) : Prop :=
  (∀ v ∈ walk tid chain, v.tuple ≠ tuple) ∧ ∀ v, recordAt tid chain = some v → v.tuple ≠ tuple

theorem outOfReach_of_untouched (untouched : ∀ v ∈ walk tid chain, v.tuple ≠ tuple) : OutOfReach tid chain tuple :=
  ⟨untouched,fun v got => untouched v (recordAt_walk got)⟩

theorem Covered.outOfReach (covered : Covered multiplier chain tuple tick) (distinct : (chain.map Version.tuple).Nodup)
    (visible : tick < globalTick / multiplier) : OutOfReach (computeReadOnlyTid multiplier globalTick) chain tuple := by
  apply outOfReach_of_untouched
  obtain ⟨front,pred,old,rest,rfl,rfl,early⟩ := covered
  intro v touched same
  have seen := walk_stops (le_computeReadOnlyTid (Nat.lt_of_le_of_lt early visible)) touched
  rw [show front ++ pred :: old :: rest = (front ++ [pred]) ++ old :: rest from by simp,map_append,nodup_append] at distinct
  exact distinct.2.2 v.tuple (mem_map_of_mem seen) old.tuple (by simp) same

theorem walk_subset : v ∈ walk tid chain → v ∈ chain := by
  intro touched
  induction chain with
  | nil => cases touched
  | cons head rest ih =>
    simp only [walk] at touched
    split at touched
    · rw [mem_singleton.mp touched]
      exact mem_cons_self
    rcases mem_cons.mp touched with same | later
    · rw [same]
      exact mem_cons_self
    · exact mem_cons_of_mem head (ih later)

theorem fromTuple_pair {old : Version} (other : old.tuple ≠ start) :
    (∃ later, fromTuple start (front ++ pred :: old :: rest) = later ++ pred :: old :: rest) ∨
      fromTuple start (front ++ pred :: old :: rest) = fromTuple start rest := by
  induction front with
  | nil =>
    by_cases here : pred.tuple = start
    · exact .inl ⟨[],by simp [fromTuple,here]⟩
    · exact .inr (by simp [fromTuple,here,other])
  | cons head front ih =>
    by_cases here : head.tuple = start
    · exact .inl ⟨head :: front,by simp [fromTuple,here]⟩
    have skips : fromTuple start (head :: front ++ pred :: old :: rest) = fromTuple start (front ++ pred :: old :: rest) := by
      simp [fromTuple,here]
    rw [skips]
    exact ih

theorem Covered.outOfReach_from (covered : Covered multiplier chain tuple tick) (distinct : (chain.map Version.tuple).Nodup)
    (visible : tick < globalTick / multiplier) (other : tuple ≠ start) :
    OutOfReach (computeReadOnlyTid multiplier globalTick) (fromTuple start chain) tuple := by
  have suffix : (fromTuple start chain).Sublist chain := dropWhile_sublist _
  obtain ⟨front,pred,old,rest,rfl,rfl,early⟩ := covered
  rcases fromTuple_pair other with ⟨later,ahead⟩ | behind
  · rw [ahead] at suffix ⊢
    exact Covered.outOfReach ⟨later,pred,old,rest,rfl,rfl,early⟩ (distinct.sublist (suffix.map _)) visible
  rw [behind]
  apply outOfReach_of_untouched
  intro v touched same
  have inRest : v ∈ rest := (dropWhile_sublist _).subset (walk_subset touched)
  rw [show front ++ pred :: old :: rest = (front ++ [pred]) ++ old :: rest from by simp,map_append,nodup_append] at distinct
  exact (nodup_cons.mp distinct.2.1).1 (mem_map.mpr ⟨v,inRest,same⟩)

theorem writeRecordAt_shape (multiplier fresh tid : Nat) (delete fits : Bool) (head : Version) (tail : List Version) :
    ∃ lead last, (writeRecordAt multiplier fresh tid delete fits (head :: tail)).1 = lead ++ last :: tail ∧
      (last.version = head.version ∨ last.version = tid ∧ canOverwriteRecordTid multiplier head.version tid = true) := by
  simp only [writeRecordAt]
  split
  next overwrite =>
    split
    · exact ⟨[],_,rfl,.inr ⟨rfl,(Bool.and_eq_true_iff.mp overwrite).1⟩⟩
    · exact ⟨[_],head,rfl,.inl rfl⟩
  · split
    · exact ⟨[_],_,rfl,.inl rfl⟩
    · exact ⟨[_],head,rfl,.inl rfl⟩

theorem Covered.write (covered : Covered multiplier chain tuple tick) (written : ∀ v ∈ chain, v.version ≠ minTid)
    (fresh tid : Nat) (delete fits : Bool) :
    Covered multiplier (writeRecordAt multiplier fresh tid delete fits chain).1 tuple tick := by
  obtain ⟨front,pred,old,rest,rfl,named,early⟩ := covered
  cases front with
  | nil =>
    obtain ⟨lead,last,shape,kept⟩ := writeRecordAt_shape multiplier fresh tid delete fits pred (old :: rest)
    refine ⟨lead,last,old,rest,shape,named,?_⟩
    rcases kept with same | ⟨new,overwrite⟩
    · rw [same]; exact early
    simp only [canOverwriteRecordTid,Bool.or_eq_true,beq_iff_eq] at overwrite
    rcases overwrite with same | zero
    · rw [new,← same]; exact early
    · exact absurd zero (written pred mem_cons_self)
  | cons head front =>
    obtain ⟨lead,last,shape,_⟩ := writeRecordAt_shape multiplier fresh tid delete fits head (front ++ pred :: old :: rest)
    exact ⟨lead ++ last :: front,pred,old,rest,by simpa using shape,named,early⟩

-- A tuple that a guarded thread found in a tree is still the latest of its chain, or was
-- replaced by a version that is at most one tick older than the guard.
def Recent (chain : List Version) (tuple tick : Nat) : Prop :=
  chain.head?.map Version.tuple = some tuple ∨
  ∃ front pred old rest, chain = front ++ pred :: old :: rest ∧ old.tuple = tuple ∧ tick ≤ epochId pred.version + 1

theorem Recent.write (recent : Recent chain tuple tick) (now : tick ≤ epochId tid + 1)
    (multiplier fresh : Nat) (delete fits : Bool) :
    Recent (writeRecordAt multiplier fresh tid delete fits chain).1 tuple tick := by
  rcases recent with latest | ⟨front,pred,old,rest,rfl,named,after⟩
  · cases chain with
    | nil => cases latest
    | cons head rest =>
      have same : head.tuple = tuple := Option.some.inj latest
      simp only [writeRecordAt]
      split
      · split
        · exact .inl latest
        · exact .inr ⟨[],_,head,rest,rfl,same,now⟩
      · split
        · exact .inl latest
        · exact .inr ⟨[],_,head,rest,rfl,same,now⟩
  refine .inr ?_
  cases front with
  | nil =>
    obtain ⟨lead,last,shape,kept⟩ := writeRecordAt_shape multiplier fresh tid delete fits pred (old :: rest)
    refine ⟨lead,last,old,rest,shape,named,?_⟩
    rcases kept with same | ⟨new,_⟩
    · rw [same]; exact after
    · rw [new]; exact now
  | cons head front =>
    obtain ⟨lead,last,shape,_⟩ := writeRecordAt_shape multiplier fresh tid delete fits head (front ++ pred :: old :: rest)
    exact ⟨lead ++ last :: front,pred,old,rest,by simpa using shape,named,after⟩

theorem pred_unique {first second : List Version} (distinct : ((front ++ pred :: old :: rest).map Version.tuple).Nodup)
    (same : front ++ pred :: old :: rest = first ++ other :: again :: second) (named : again.tuple = old.tuple) : other = pred := by
  have equal : again = old := inj_on_of_nodup_map distinct (by rw [same]; simp) (by simp) named
  subst equal
  have nodup : ((front ++ [pred]) ++ again :: rest).Nodup := by simpa using List.Nodup.of_map Version.tuple distinct
  have whole : (front ++ [pred]) ++ again :: rest = (first ++ [other]) ++ again :: second := by simpa using same
  rw [nodup_append,nodup_cons] at nodup
  have outside : again ∉ front ++ [pred] := fun held => nodup.2.2 again held again mem_cons_self rfl
  have leads := (append_cons_inj_of_notMem outside nodup.2.1.1).mp whole
  exact (singleton_inj.mp (append_inj' leads.1 rfl).2).symm

theorem Covered.replaced (covered : Covered multiplier chain tuple tick) (distinct : (chain.map Version.tuple).Nodup)
    (recent : Recent chain start entered) (elapsed : tick < last / multiplier) (held : last < entered) : tuple ≠ start := by
  intro same
  subst same
  obtain ⟨front,pred,old,_,rfl,rfl,early⟩ := covered
  rcases recent with latest | ⟨_,_,_,_,chain,named,after⟩
  · cases front with
    | nil =>
      have equal : pred.tuple = old.tuple := Option.some.inj latest
      exact (nodup_cons.mp distinct).1 (by simp [equal])
    | cons head front =>
      have equal : head.tuple = old.tuple := Option.some.inj latest
      exact (nodup_cons.mp distinct).1 (by simp [equal])
  rw [pred_unique distinct chain named] at after
  have before : last / multiplier ≤ epochId pred.version / multiplier := Nat.div_le_div_right (by omega)
  simp only [toReadOnlyTick] at early
  omega

theorem writeRecordAt_spilled (spilled : (writeRecordAt multiplier fresh tid delete fits chain).2 = some old) :
    Covered multiplier (writeRecordAt multiplier fresh tid delete fits chain).1 old.tuple (toReadOnlyTick multiplier (epochId tid)) := by
  cases chain with
  | nil => cases spilled
  | cons head rest =>
    simp only [writeRecordAt] at spilled ⊢
    split at spilled
    · split at spilled
      · cases spilled
      next overwrite full =>
        cases spilled
        rw [if_pos overwrite,if_neg full]
        exact ⟨[],_,_,rest,rfl,rfl,le_rfl⟩
    next apart =>
      rw [if_neg apart]
      split at spilled
      next moves =>
        cases spilled
        rw [if_pos moves]
        exact ⟨[],_,_,rest,rfl,rfl,le_rfl⟩
      next stays =>
        cases spilled
        rw [if_neg stays]
        exact ⟨[],_,_,rest,rfl,rfl,le_rfl⟩

theorem writeRecordAt_tuples (multiplier fresh tid : Nat) (delete fits : Bool) (chain : List Version) :
    (writeRecordAt multiplier fresh tid delete fits chain).1.map Version.tuple = chain.map Version.tuple ∨
      ((writeRecordAt multiplier fresh tid delete fits chain).1.map Version.tuple).Perm (fresh :: chain.map Version.tuple) := by
  cases chain with
  | nil => exact .inr (.refl _)
  | cons head rest =>
    simp only [writeRecordAt]
    split
    · split
      · exact .inl rfl
      · exact .inr (.refl _)
    · split
      · exact .inr (.swap _ _ _)
      · exact .inr (.refl _)

theorem writeRecordAt_versions (held : v ∈ (writeRecordAt multiplier fresh tid delete fits chain).1) :
    v.version = tid ∨ ∃ w ∈ chain, w.version = v.version := by
  cases chain with
  | nil =>
    rw [mem_singleton.mp held]
    exact .inl rfl
  | cons head rest =>
    have older : ∀ w, w ∈ rest → w.version = tid ∨ ∃ u ∈ head :: rest, u.version = w.version := by
      intro w old
      exact .inr ⟨w,mem_cons_of_mem head old,rfl⟩
    have first : head.version = tid ∨ ∃ u ∈ head :: rest, u.version = head.version := .inr ⟨head,mem_cons_self,rfl⟩
    simp only [writeRecordAt] at held
    split at held <;> split at held <;> simp only [mem_cons] at held
    · rcases held with rfl | old
      · exact .inl rfl
      · exact older v old
    all_goals
      rcases held with rfl | rfl | old
      · exact .inl rfl
      · exact first
      · exact older v old

theorem writeRecordAt_deleting (held : v ∈ chain) (deleted : v.deleting = true) :
    v ∈ (writeRecordAt multiplier fresh tid delete fits chain).1 := by
  cases chain with
  | nil => cases held
  | cons head rest =>
    simp only [writeRecordAt]
    rcases mem_cons.mp held with same | old
    · rw [← same,deleted]
      simp
    · split <;> split <;> simp [old]

theorem writeRecordAt_head (shape : (writeRecordAt multiplier fresh tid delete fits chain).1 = latest :: older) :
    latest.tuple = fresh ∨ ∃ head rest, chain = head :: rest ∧ latest.tuple = head.tuple ∧ head.deleting = false := by
  cases chain with
  | nil =>
    cases shape
    exact .inl rfl
  | cons head rest =>
    simp only [writeRecordAt] at shape
    split at shape
    next overwrite =>
      split at shape
      · cases shape
        exact .inr ⟨head,_,rfl,rfl,by simpa using (Bool.and_eq_true_iff.mp overwrite).2⟩
      · cases shape
        exact .inl rfl
    · split at shape
      next moves =>
        cases shape
        exact .inr ⟨head,rest,rfl,rfl,by simpa using (Bool.and_eq_true_iff.mp moves).2⟩
      · cases shape
        exact .inl rfl

end DbExp.Silo
