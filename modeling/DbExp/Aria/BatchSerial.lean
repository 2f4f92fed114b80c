import DbExp.Aria.Reservations

namespace DbExp.Aria
open Function
set_option linter.unusedSectionVars false
open BitField LockLine
open List
open Function (forall_update_iff)

section
variable {κ ν : Type} [DecidableEq κ] {b : Batch n κ ν} {s t : State n κ ν} {i j : Fin n}

-- What a batch has to be for the words to hold what is put in them: ids and epoch
-- fit their fields, 0 is no id, and every word is from an earlier epoch.
structure Fits (b : Batch n κ ν) : Prop where
  distinct : ∀ i j, (b.txns i).id = (b.txns j).id → i = j
  positive : ∀ i, 0 < (b.txns i).id
  small : ∀ i, (b.txns i).id < 2^20
  epoch : b.epoch < 2^24
  stale : ∀ k, getEpoch (b.words k) < b.epoch

section
variable (b : Batch n κ ν)

def plan (i : Fin n) : List (Reservation κ) :=
  if (b.txns i).abortNoRetry then [] else reservations b.context (b.txns i)

def Stage.left : Stage κ ν → List (Reservation κ)
  | .reserving todo => todo
  | _ => []

section
variable (s : State n κ ν)

def Reserving (r : Reservation κ) (id : Nat) : Prop :=
  ∃ i done, plan b i = done ++ (s.stages i).left ∧ r ∈ done ∧ id = (b.txns i).id

def AllReserved : Prop := ∀ i, (s.stages i).Reserved

theorem Stage.Reserved.left_nil {stage : Stage κ ν} (reserved : stage.Reserved) : stage.left = [] := by
  cases stage with
  | reserving todo =>
    cases todo with
    | nil => rfl
    | cons r rest => exact reserved.elim
  | _ => rfl

def flags (i : Fin n) : Flags := analyzeDependency b.context b.epoch s.words (b.txns i)

def Judged (i : Fin n) : Stage κ ν → Prop
  | .reserving _ => (b.txns i).abortNoRetry = false
  | .checked found => AllReserved s ∧ (b.txns i).abortNoRetry = false ∧ found = flags b s i
  | .committing todo => AllReserved s ∧ (b.txns i).abortNoRetry = false ∧ commits b.context (b.txns i) (flags b s i) = true ∧
      ∃ done, effects b i = done ++ todo
  | .aborted => True

end

end

structure Sound (b : Batch n κ ν) (s : State n κ ν) : Prop where
  plans : ∀ i, ∃ done, plan b i = done ++ (s.stages i).left
  words : ∀ k, Marks b.epoch (s.words k) (Reserving b s (.read k)) (Reserving b s (.write k))
  judged : ∀ i, Judged b s i (s.stages i)

theorem initial_sound (fits : Fits b) : Sound b (initial b) := by
  have stage : ∀ i, ((initial b).stages i).left = plan b i := by
    intro i
    unfold initial plan
    dsimp only
    split <;> rfl
  have none : ∀ r id, ¬ Reserving b (initial b) r id := by
    rintro r id ⟨i,done,whole,mem,_⟩
    rw [stage i] at whole
    have empty : done = [] := by simpa using whole
    rw [empty] at mem; cases mem
  refine ⟨?_,?_,?_⟩
  · intro i
    exact ⟨[],by rw [stage i]; rfl⟩
  · intro k
    exact .inl ⟨fits.stale k,none _,none _⟩
  intro i
  unfold initial
  dsimp only
  split
  · trivial
  next active =>
    exact Bool.eq_false_iff.mpr active

theorem Sound.move (sound : Sound b s) (left : stage.left = (s.stages i).left)
    (judged : Judged b s i stage) (reserved : AllReserved s) (later : stage.Reserved) (db : κ → ν) :
    Sound b {s with db := db, stages := update s.stages i stage} := by
  have same : ∀ j, (update s.stages i stage j).left = (s.stages j).left :=
    (forall_update_iff s.stages (fun j x => x.left = (s.stages j).left)).mpr ⟨left,fun _ _ => rfl⟩
  have all : AllReserved {s with db := db, stages := update s.stages i stage} :=
    (forall_update_iff s.stages (fun _ x => x.Reserved)).mpr ⟨later,fun j _ => reserved j⟩
  have kept : ∀ j x, Judged b s j x → Judged b {s with db := db, stages := update s.stages i stage} j x := by
    intro j x known
    cases x with
    | reserving todo => exact known
    | checked got | committing todo => exact ⟨all,known.2⟩
    | aborted => trivial
  refine ⟨?_,?_,?_⟩
  · intro j
    obtain ⟨done,whole⟩ := sound.plans j
    exact ⟨done,by rw [whole]; exact congrArg _ (same j).symm⟩
  · intro k
    refine (sound.words k).congr ?_ ?_ <;>
    · intro y
      unfold Reserving
      simp only [same]
  · intro j
    apply kept
    exact (forall_update_iff s.stages (fun j x => Judged b s j x)).mpr ⟨judged,fun j _ => sound.judged j⟩ j

theorem reserving_next (sound : Sound b s) (here : s.stages i = .reserving (r :: rest)) (words : κ → Word) (x : Reservation κ) (y : Nat) :
    Reserving b {s with words := words, stages := update s.stages i (.reserving rest)} x y ↔
      x = r ∧ y = (b.txns i).id ∨ Reserving b s x y := by
  obtain ⟨made,whole⟩ := sound.plans i
  rw [here] at whole
  have next : plan b i = (made ++ [r]) ++ rest := by rw [whole]; simp [Stage.left]
  constructor
  · rintro ⟨j,done,split,mem,same⟩
    by_cases mine : j = i
    · subst mine
      simp only [update_self,Stage.left] at split
      obtain rfl : done = made ++ [r] := append_cancel_right (split.symm.trans next)
      rcases mem_append.mp mem with old | new
      · exact .inr ⟨j,made,by rw [here]; exact whole,old,same⟩
      · exact .inl ⟨mem_singleton.mp new,same⟩
    · simp only [update_of_ne mine] at split
      exact .inr ⟨j,done,split,mem,same⟩
  rintro (⟨rfl,rfl⟩ | ⟨j,done,split,mem,same⟩)
  · exact ⟨i,made ++ [x],by simpa [Stage.left] using next,by simp,rfl⟩
  by_cases mine : j = i
  · subst mine
    rw [here] at split
    obtain rfl : done = made := append_cancel_right (split.symm.trans whole)
    exact ⟨j,done ++ [r],by simpa [Stage.left] using next,by simp [mem],same⟩
  · exact ⟨j,done,by simpa [update_of_ne mine] using split,mem,same⟩

theorem reserveKey_marks (fits : Fits b) (i : Fin n) (r : Reservation κ) {said : Reservation κ → Nat → Prop}
    (marks : ∀ k, Marks b.epoch (words k) (said (.read k)) (said (.write k))) :
    ∃ next, reserveKey b words (b.txns i).id r = some next ∧ ∀ k, Marks b.epoch (next k)
      (fun y => .read k = r ∧ y = (b.txns i).id ∨ said (.read k) y) (fun y => .write k = r ∧ y = (b.txns i).id ∨ said (.write k) y) := by
  cases r with
  | read key =>
    obtain ⟨v,done,after⟩ := reserveRead_marks (marks key) (fits.positive i) (fits.small i) fits.epoch
    refine ⟨_,by rw [reserveKey,done]; rfl,?_⟩
    refine (forall_update_iff words (fun k w => Marks b.epoch w _ _)).mpr ⟨?_,fun k other => ?_⟩
    · exact after.congr (by simp) (by simp)
    · exact (marks k).congr (by simp [other]) (by simp)
  | write key =>
    obtain ⟨v,done,after⟩ := reserveWrite_marks (marks key) (fits.positive i) (fits.small i) fits.epoch
    refine ⟨_,by rw [reserveKey,done]; rfl,?_⟩
    refine (forall_update_iff words (fun k w => Marks b.epoch w _ _)).mpr ⟨?_,fun k other => ?_⟩
    · exact after.congr (by simp) (by simp)
    · exact (marks k).congr (by simp) (by simp [other])

theorem reserve_sound (fits : Fits b) (sound : Sound b s) (taken : step b s (.reserve i) = some t) : Sound b t := by
  dsimp only [step] at taken
  split at taken
  next r rest here =>
    obtain ⟨words,reserved,rfl⟩ := Option.map_eq_some_iff.mp taken
    have next := reserving_next sound here words
    have judged : ∀ j x, Judged b s j x → Judged b {s with words := words, stages := update s.stages i (.reserving rest)} j x := by
      intro j x known
      cases x with
      | checked got | committing todo =>
        have free := known.1 i
        rw [here] at free
        exact free.elim
      | _ => exact known
    refine ⟨?_,?_,?_⟩
    · refine (forall_update_iff s.stages (fun j x => ∃ done, plan b j = done ++ x.left)).mpr ⟨?_,fun j _ => sound.plans j⟩
      obtain ⟨made,whole⟩ := sound.plans i
      rw [here] at whole
      exact ⟨made ++ [r],by rw [whole]; simp [Stage.left]⟩
    · obtain ⟨_,same,marks⟩ := reserveKey_marks fits i r sound.words
      obtain rfl := Option.some.inj (reserved.symm.trans same)
      exact fun k => (marks k).congr (fun y => (next _ y).symm) (fun y => (next _ y).symm)
    intro j
    apply judged
    have active := sound.judged i
    rw [here] at active
    have mine : Judged b s i (.reserving rest) := active
    exact (forall_update_iff s.stages (fun j x => Judged b s j x)).mpr ⟨mine,fun j _ => sound.judged j⟩ j
  · cases taken

theorem analyze_sound (sound : Sound b s) (reserved : AllReserved s) (taken : step b s (.analyze i) = some t) : Sound b t := by
  dsimp only [step] at taken
  split at taken
  next here =>
    cases taken
    have active := sound.judged i
    rw [here] at active
    have judged : Judged b s i (.checked (flags b s i)) := ⟨reserved,active,rfl⟩
    exact sound.move (by rw [here]; rfl) judged reserved trivial s.db
  · cases taken

theorem decide_sound (sound : Sound b s) (taken : step b s (.decide i) = some t) : Sound b t := by
  dsimp only [step] at taken
  split at taken
  next got here =>
    cases taken
    have known := sound.judged i
    rw [here] at known
    obtain ⟨reserved,active,rfl⟩ := known
    by_cases commit : commits b.context (b.txns i) (flags b s i) = true
    · rw [if_pos commit]
      have judged : Judged b s i (.committing (effects b i)) := ⟨reserved,active,commit,[],rfl⟩
      exact sound.move (by rw [here]; rfl) judged reserved trivial s.db
    · rw [if_neg commit]
      have judged : Judged b s i .aborted := trivial
      exact sound.move (by rw [here]; rfl) judged reserved trivial s.db
  · cases taken

theorem write_sound (sound : Sound b s) (taken : step b s (.write i) = some t) : Sound b t := by
  dsimp only [step] at taken
  split at taken
  next w rest here =>
    cases taken
    have known := sound.judged i
    rw [here] at known
    obtain ⟨reserved,active,commit,done,whole⟩ := known
    have judged : Judged b s i (.committing rest) := ⟨reserved,active,commit,done ++ [w],by rw [whole]; simp⟩
    exact sound.move (by rw [here]; rfl) judged reserved trivial _
  · cases taken

theorem step_sound (fits : Fits b) (sound : Sound b s) (allowed : ReservedFirst s a) (taken : step b s a = some t) : Sound b t := by
  cases a with
  | reserve i => exact reserve_sound fits sound taken
  | analyze i => exact analyze_sound sound allowed taken
  | decide i => exact decide_sound sound taken
  | write i => exact write_sound sound taken

theorem reserving_all (reserved : AllReserved s) (r : Reservation κ) (y : Nat) :
    Reserving b s r y ↔ ∃ i, r ∈ plan b i ∧ y = (b.txns i).id := by
  unfold Reserving
  constructor
  · rintro ⟨i,_,whole,mem,same⟩
    exact ⟨i,by rw [whole]; exact mem_append_left _ mem,same⟩
  · rintro ⟨i,mem,same⟩
    exact ⟨i,plan b i,by rw [(reserved i).left_nil]; simp,mem,same⟩

theorem mem_plan_write : Reservation.write k ∈ plan b i ↔ (b.txns i).abortNoRetry = false ∧ k ∈ (b.txns i).writtenKeys := by
  unfold plan reservations exempt Transaction.isReadOnly Transaction.writtenKeys
  by_cases retried : (b.txns i).abortNoRetry = true
  · simp [retried]
  · by_cases none : (b.txns i).writeSet = []
    · by_cases optimised : b.context.readOnlyOptmization = true <;> simp [retried,none,optimised]
    · simp [retried,none]

theorem mem_plan_read : Reservation.read k ∈ plan b i ↔
    (b.txns i).abortNoRetry = false ∧ exempt b.context (b.txns i) = false ∧ k ∈ (b.txns i).checkedReads := by
  unfold plan reservations
  by_cases retried : (b.txns i).abortNoRetry = true
  · simp [retried]
  · by_cases skipped : exempt b.context (b.txns i) = true <;> simp [retried,skipped]

section
variable (sound : Sound b s) (reserved : AllReserved s)
include sound reserved

theorem written_before (k : κ) (n : Nat) :
    getEpoch (s.words k) = b.epoch ∧ getWts (s.words k) < n ∧ getWts (s.words k) ≠ 0 ↔
      ∃ j, (b.txns j).abortNoRetry = false ∧ k ∈ (b.txns j).writtenKeys ∧ (b.txns j).id < n := by
  rw [(sound.words k).written_below]
  simp only [reserving_all reserved,mem_plan_write]
  constructor
  · rintro ⟨_,⟨j,⟨active,writes⟩,rfl⟩,less⟩
    exact ⟨j,active,writes,less⟩
  · rintro ⟨j,active,writes,less⟩
    exact ⟨_,⟨j,⟨active,writes⟩,rfl⟩,less⟩

section
variable (checked : exempt b.context (b.txns i) = false)
include checked

theorem raw_iff :
    (flags b s i).raw = true ↔ ∃ k ∈ (b.txns i).checkedReads, ∃ j, (b.txns j).abortNoRetry = false ∧
      k ∈ (b.txns j).writtenKeys ∧ (b.txns j).id < (b.txns i).id := by
  unfold flags analyzeDependency
  rw [if_neg (by simp [checked]),any_eq_true]
  simp only [decide_eq_true_iff,written_before sound reserved]

theorem waw_iff :
    (flags b s i).waw = true ↔ ∃ k ∈ (b.txns i).writtenKeys, ∃ j, (b.txns j).abortNoRetry = false ∧
      k ∈ (b.txns j).writtenKeys ∧ (b.txns j).id < (b.txns i).id := by
  unfold flags analyzeDependency
  rw [if_neg (by simp [checked]),any_eq_true]
  simp only [decide_eq_true_iff,written_before sound reserved]

theorem war_iff :
    (flags b s i).war = true ↔ ∃ k ∈ (b.txns i).writtenKeys, ∃ j, (b.txns j).abortNoRetry = false ∧
      exempt b.context (b.txns j) = false ∧ k ∈ (b.txns j).checkedReads ∧ (b.txns j).id < (b.txns i).id := by
  unfold flags analyzeDependency
  rw [if_neg (by simp [checked]),any_eq_true]
  refine exists_congr fun k => and_congr_right fun _ => ?_
  rw [decide_eq_true_iff,(sound.words k).read_below]
  simp only [reserving_all reserved,mem_plan_read]
  constructor
  · rintro ⟨_,⟨j,⟨active,tracked,reads⟩,rfl⟩,less⟩
    exact ⟨j,active,tracked,reads,less⟩
  · rintro ⟨j,active,tracked,reads,less⟩
    exact ⟨_,⟨j,⟨active,tracked,reads⟩,rfl⟩,less⟩

end

end

theorem writer_checked (writes : k ∈ (b.txns i).writtenKeys) : exempt b.context (b.txns i) = false := by
  unfold exempt Transaction.isReadOnly
  unfold Transaction.writtenKeys at writes
  cases empty : (b.txns i).writeSet with
  | nil => rw [empty] at writes; cases writes
  | cons w rest => simp

structure Good (b : Batch n κ ν) (s : State n κ ν) (i : Fin n) : Prop where
  reserved : AllReserved s
  active : (b.txns i).abortNoRetry = false
  commit : commits b.context (b.txns i) (flags b s i) = true

theorem Sound.good (sound : Sound b s) (committed : s.Committed i) : Good b s i := by
  obtain ⟨_,here⟩ := committed
  have known := sound.judged i
  rw [here] at known
  exact ⟨known.1,known.2.1,known.2.2.1⟩

theorem Good.not_waw (good : Good b s i) (checked : exempt b.context (b.txns i) = false) : (flags b s i).waw = false := by
  have commit := good.commit
  unfold commits at commit
  rw [if_neg (by simp [checked])] at commit
  by_contra other
  rw [if_pos (by simpa using other)] at commit
  cases commit

theorem Good.raw_or_war (good : Good b s i) (isolation : b.context.snapshotIsolation = false)
    (checked : exempt b.context (b.txns i) = false) : (flags b s i).war = false ∨ (flags b s i).raw = false := by
  have commit := good.commit
  unfold commits at commit
  rw [if_neg (by simp [checked]),if_neg (by simp [good.not_waw checked]),if_neg (by simp [isolation])] at commit
  split at commit
  · simpa using commit
  · exact .inr (by simpa using commit)

theorem one_writer (fits : Fits b) (sound : Sound b s) (left : Good b s i) (right : Good b s j)
    (mine : k ∈ (b.txns i).writtenKeys) (theirs : k ∈ (b.txns j).writtenKeys) : i = j := by
  by_contra other
  have earlier : ∀ {i j}, Good b s i → Good b s j → k ∈ (b.txns i).writtenKeys → k ∈ (b.txns j).writtenKeys →
      ¬ (b.txns i).id < (b.txns j).id := by
    intro i j one two mine theirs less
    have checked := writer_checked theirs
    have waw := (waw_iff sound two.reserved checked).mpr ⟨k,theirs,i,one.active,mine,less⟩
    rw [two.not_waw checked] at waw
    cases waw
  rcases Nat.lt_trichotomy (b.txns i).id (b.txns j).id with less | same | more
  · exact earlier left right mine theirs less
  · exact other (fits.distinct i j same)
  · exact earlier right left theirs mine more

-- Place in the serial order: first those exempt from checks, then those that read
-- what a smaller id writes, largest id first, then the others by id.
def rank (b : Batch n κ ν) (s : State n κ ν) (i : Fin n) : Nat :=
  if exempt b.context (b.txns i) then (b.txns i).id
  else if (flags b s i).raw then 2^20 + (2^20 - (b.txns i).id)
  else 2^21 + (b.txns i).id

theorem rank_reader (fits : Fits b) (isolation : b.context.snapshotIsolation = false) (sound : Sound b s) (left : Good b s i)
    (right : Good b s j) (other : i ≠ j) (reads : k ∈ (b.txns i).checkedReads) (writes : k ∈ (b.txns j).writtenKeys) :
    rank b s i < rank b s j := by
  have one := fits.small i
  have two := fits.small j
  have three := fits.positive j
  have tracked := writer_checked writes
  unfold rank
  rw [if_neg (by simp [tracked] : ¬ exempt b.context (b.txns j) = true)]
  by_cases free : exempt b.context (b.txns i) = true
  · rw [if_pos free]
    split <;> omega
  rw [if_neg free]
  have checked : exempt b.context (b.txns i) = false := by simpa using free
  rcases Nat.lt_trichotomy (b.txns i).id (b.txns j).id with less | same | more
  · have war := (war_iff sound right.reserved tracked).mpr ⟨k,writes,i,left.active,checked,reads,less⟩
    have raw : (flags b s j).raw = false := (right.raw_or_war isolation tracked).resolve_left (by simp [war])
    rw [raw]
    simp only [Bool.false_eq_true,if_false]
    split <;> omega
  · exact absurd (fits.distinct i j same) other
  · have raw := (raw_iff sound left.reserved checked).mpr ⟨k,reads,j,right.active,writes,more⟩
    rw [if_pos raw]
    split <;> omega

def installed (b : Batch n κ ν) (i : Fin n) : Stage κ ν → List (κ × ν)
  | .committing todo => (effects b i).take ((effects b i).length - todo.length)
  | _ => []

theorem effects_keys (b : Batch n κ ν) (i : Fin n) : (effects b i).map Prod.fst = (b.txns i).writtenKeys :=
  Serial.Txn.effects_keys _ _

theorem installed_writes (mem : k ∈ (installed b i stage).map Prod.fst) : k ∈ (b.txns i).writtenKeys := by
  rw [← effects_keys]
  unfold installed at mem
  split at mem
  · rw [map_take] at mem
    exact mem_of_mem_take mem
  · cases mem

structure Stored (b : Batch n κ ν) (s : State n κ ν) : Prop where
  kept : ∀ k, (∀ i, k ∉ (installed b i (s.stages i)).map Prod.fst) → s.db k = b.db k
  stored : ∀ k i, k ∈ (installed b i (s.stages i)).map Prod.fst → s.db k = Serial.install b.db (installed b i (s.stages i)) k

theorem Stored.same (stored : Stored b s) (db : t.db = s.db) (here : installed b i stage = installed b i (s.stages i))
    (stages : t.stages = update s.stages i stage) : Stored b t := by
  have all : ∀ j, installed b j (t.stages j) = installed b j (s.stages j) := by
    rw [stages]
    exact (forall_update_iff s.stages (fun j x => installed b j x = installed b j (s.stages j))).mpr ⟨here,fun _ _ => rfl⟩
  refine ⟨?_,?_⟩
  · intro k none
    rw [db]
    exact stored.kept k fun j => all j ▸ none j
  intro k j mem
  rw [all j] at mem ⊢
  rw [db]
  exact stored.stored k j mem

theorem write_stored (fits : Fits b) (sound : Sound b s) (stored : Stored b s) (taken : step b s (.write i) = some t) :
    Stored b t := by
  dsimp only [step] at taken
  split at taken
  next w rest here =>
    cases taken
    have known := sound.judged i
    rw [here] at known
    obtain ⟨reserved,active,commit,done,whole⟩ := known
    have before : installed b i (s.stages i) = done := by
      rw [here,installed,whole]; simp
    have after : installed b i (.committing rest) = done ++ [w] := by
      have size : done.length + (rest.length + 1) - rest.length = done.length + 1 := by omega
      rw [installed,whole]; simp [size,take_append]
    have alone : ∀ j, j ≠ i → w.1 ∉ (installed b j (s.stages j)).map Prod.fst := by
      intro j other mem
      have theirs := installed_writes mem
      have mine : w.1 ∈ (b.txns i).writtenKeys := by
        rw [← effects_keys,whole]; simp
      have committed : s.Committed j := by
        cases stage : s.stages j with
        | committing todo => exact ⟨todo,stage⟩
        | _ => rw [stage] at mem; cases mem
      exact other (one_writer fits sound (sound.good committed) ⟨reserved,active,commit⟩ theirs mine)
    refine ⟨?_,?_⟩
    · intro k none
      have fresh := none i
      dsimp only at fresh ⊢
      rw [update_self,after,map_append,mem_append,not_or] at fresh
      rw [update_of_ne (by simpa using fresh.2)]
      refine stored.kept k fun j => ?_
      by_cases same : j = i
      · subst same; rw [before]; exact fresh.1
      · have other := none j
        dsimp only at other
        rwa [update_of_ne same] at other
    intro k j mem
    dsimp only at mem ⊢
    by_cases same : j = i
    · subst same
      rw [update_self,after] at mem ⊢
      rw [Serial.install_snoc]
      by_cases mine : k = w.1
      · subst mine; rw [update_self,update_self]
      rw [update_of_ne mine,update_of_ne mine,← before]
      apply stored.stored k j
      rw [before]
      simpa [mine] using mem
    · rw [update_of_ne same] at mem ⊢
      rw [update_of_ne (by rintro rfl; exact alone j same mem)]
      exact stored.stored k j mem
  · cases taken

theorem step_stored (fits : Fits b) (sound : Sound b s) (stored : Stored b s) (taken : step b s a = some t) : Stored b t := by
  cases a with
  | reserve i =>
    dsimp only [step] at taken
    split at taken
    next here =>
      obtain ⟨_,_,rfl⟩ := Option.map_eq_some_iff.mp taken
      exact stored.same rfl (by rw [here]; rfl) rfl
    · cases taken
  | analyze i =>
    dsimp only [step] at taken
    split at taken
    next here =>
      cases taken
      exact stored.same rfl (by rw [here]; rfl) rfl
    · cases taken
  | decide i =>
    dsimp only [step] at taken
    split at taken
    next here =>
      cases taken
      refine stored.same rfl ?_ rfl
      rw [here]
      split <;> simp [installed]
    · cases taken
  | write i => exact write_stored fits sound stored taken

theorem reached_sound (fits : Fits b) (reached : (machine b).Reached ReservedFirst s) : Sound b s ∧ Stored b s := by
  refine reached.invariant (fun s => Sound b s ∧ Stored b s) ⟨initial_sound fits,?_⟩ ?_
  · refine ⟨fun _ _ => rfl,?_⟩
    intro k i mem
    change k ∈ (installed b i ((initial b).stages i)).map Prod.fst at mem
    unfold initial at mem
    dsimp only at mem
    split at mem <;> cases mem
  · rintro s _ _ _ ⟨sound,stored⟩ allowed taken
    exact ⟨step_sound fits sound allowed taken,step_stored fits sound stored taken⟩

section
variable (b : Batch n κ ν)

-- The committed transactions one at a time, in this order, from the database before
-- the batch: each reads what it read and the database ends the same.
structure SerialOrder (s : State n κ ν) (order : List (Fin n)) : Prop where
  once : order.Nodup
  committed : ∀ i, i ∈ order ↔ s.Committed i
  reads : Serial.observations (order.map fun i => (b.txns i).toSerial) b.db = order.map fun i => (b.txns i).toSerial.observe b.db
  final : Serial.serial (order.map fun i => (b.txns i).toSerial) b.db = s.db

def InIdOrder (order : List (Fin n)) : Prop :=
  order.Pairwise fun i j => exempt b.context (b.txns i) = true ∧ exempt b.context (b.txns j) = false ∨
    exempt b.context (b.txns i) = exempt b.context (b.txns j) ∧ (b.txns i).id < (b.txns j).id

structure Serializable (s : State n κ ν) : Prop where
  oneWriter : ∀ k i j, s.Committed i → s.Committed j → k ∈ (b.txns i).writtenKeys → k ∈ (b.txns j).writtenKeys → i = j
  ordered : ∃ order, SerialOrder b s order ∧ (b.context.reorderingOptmization = false → InIdOrder b order)

def IndexesUnwritten : Prop :=
  ∀ i j k, i ≠ j → (k,true) ∈ (b.txns i).readSet → k ∉ (b.txns j).writtenKeys

end

open Classical in
noncomputable def serialOrder (b : Batch n κ ν) (s : State n κ ν) : List (Fin n) :=
  ((List.finRange n).filter fun i => s.Committed i).mergeSort fun i j => rank b s i ≤ rank b s j

theorem mem_serialOrder : i ∈ serialOrder b s ↔ s.Committed i := by
  unfold serialOrder
  rw [(mergeSort_perm _ _).mem_iff,mem_filter]
  simp

theorem serialOrder_nodup (b : Batch n κ ν) (s : State n κ ν) : (serialOrder b s).Nodup := by
  unfold serialOrder
  rw [(mergeSort_perm _ _).nodup_iff]
  exact (nodup_finRange n).filter _

theorem serialOrder_sorted (b : Batch n κ ν) (s : State n κ ν) : (serialOrder b s).Pairwise fun i j => rank b s i ≤ rank b s j := by
  unfold serialOrder
  refine (pairwise_mergeSort ?_ ?_ _).imp (by simp)
  · intro i j k one two
    simp only [decide_eq_true_eq] at *
    omega
  · intro i j
    simp only [Bool.or_eq_true,decide_eq_true_eq]
    omega

theorem checked_read (indexes : IndexesUnwritten b) (other : i ≠ j) (reads : k ∈ (b.txns i).toSerial.reads)
    (writes : k ∈ (b.txns j).writtenKeys) : k ∈ (b.txns i).checkedReads := by
  obtain ⟨⟨key,bit⟩,mem,rfl⟩ := mem_map.mp reads
  cases bit with
  | true => exact absurd writes (indexes i j key other mem)
  | false => exact mem_map.mpr ⟨(key,false),mem_filter.mpr ⟨mem,by simp⟩,rfl⟩

theorem serialOrder_unread (fits : Fits b) (isolation : b.context.snapshotIsolation = false) (indexes : IndexesUnwritten b)
    (sound : Sound b s) (before : [i,j] <+ serialOrder b s) (reads : k ∈ (b.txns j).toSerial.reads) :
    k ∉ (b.txns i).toSerial.written := by
  intro writes
  have other := pair_ne (serialOrder_nodup b s) before
  obtain ⟨first,second⟩ := pair_mem before
  have ordered : rank b s i ≤ rank b s j := by
    have pair := (serialOrder_sorted b s).sublist before
    simpa using pair
  have tracked := checked_read indexes (Ne.symm other) reads writes
  have later := rank_reader fits isolation sound (sound.good (mem_serialOrder.mp second)) (sound.good (mem_serialOrder.mp first))
    (Ne.symm other) tracked writes
  omega

theorem complete_installed (complete : s.Complete) (committed : s.Committed i) : installed b i (s.stages i) = effects b i := by
  obtain ⟨_,here⟩ := committed
  rcases complete i with done | aborted
  · rw [done]; simp [installed]
  · rw [here] at aborted; cases aborted

theorem serialOrder_final (fits : Fits b) (sound : Sound b s) (stored : Stored b s) (complete : s.Complete) :
    Serial.install b.db ((serialOrder b s).flatMap (effects b)) = s.db := by
  funext k
  by_cases writer : ∃ i, s.Committed i ∧ k ∈ (b.txns i).writtenKeys
  · obtain ⟨i,committed,writes⟩ := writer
    have alone : ∀ j ∈ serialOrder b s, j ≠ i → k ∉ (effects b j).map Prod.fst := by
      intro j mem other theirs
      rw [effects_keys] at theirs
      exact other (one_writer fits sound (sound.good (mem_serialOrder.mp mem)) (sound.good committed) theirs writes)
    rw [Serial.install_flatMap (mem_serialOrder.mpr committed) alone (serialOrder_nodup b s)]
    have whole := complete_installed (b := b) complete committed
    rw [stored.stored k i (by rw [whole,effects_keys]; exact writes),whole]
  rw [Serial.install_flatMap_none]
  · refine (stored.kept k ?_).symm
    intro i mem
    cases stage : s.stages i with
    | committing todo => exact writer ⟨i,⟨todo,stage⟩,installed_writes mem⟩
    | _ => rw [stage] at mem; cases mem
  · intro i mem writes
    rw [effects_keys] at writes
    exact writer ⟨i,mem_serialOrder.mp mem,writes⟩

theorem serialOrder_by_id (fits : Fits b) (isolation : b.context.snapshotIsolation = false)
    (plain : b.context.reorderingOptmization = false) (sound : Sound b s) : InIdOrder b (serialOrder b s) := by
  have ranked : ∀ i ∈ serialOrder b s, rank b s i = if exempt b.context (b.txns i) then (b.txns i).id else 2^21 + (b.txns i).id := by
    intro i mem
    have good := sound.good (mem_serialOrder.mp mem)
    unfold rank
    split
    · rfl
    rename_i checked
    have commit := good.commit
    have free : exempt b.context (b.txns i) = false := by simpa using checked
    unfold commits at commit
    rw [if_neg checked,if_neg (by simp [good.not_waw free]),if_neg (by simp [isolation]),if_neg (by simp [plain])] at commit
    rw [if_neg (by simpa using commit)]
  have pairs := (serialOrder_sorted b s).and (serialOrder_nodup b s)
  refine pairs.imp_of_mem ?_
  rintro i j first second ⟨ordered,other⟩
  rw [ranked i first,ranked j second] at ordered
  have distinct : (b.txns i).id ≠ (b.txns j).id := fun same => other (fits.distinct i j same)
  have small := fits.small j
  by_cases one : exempt b.context (b.txns i) = true <;> by_cases two : exempt b.context (b.txns j) = true <;>
    simp [one,two] at ordered ⊢ <;> omega

theorem serializable_of_batch_that_fits (b : Batch n κ ν) (s : State n κ ν) (fits : Fits b)
    (isolation : b.context.snapshotIsolation = false) (indexes : IndexesUnwritten b)
    (reached : (machine b).Reached ReservedFirst s) (complete : s.Complete) : Serializable b s := by
  obtain ⟨sound,stored⟩ := reached_sound fits reached
  have unread : ∀ t u, [t,u] <+ (serialOrder b s).map (fun i => (b.txns i).toSerial) → ∀ k ∈ u.reads, k ∉ t.written := by
    intro t u pair k reads
    obtain ⟨i,j,before,rfl,rfl⟩ := pair_map.mp pair
    exact serialOrder_unread fits isolation indexes sound before reads
  obtain ⟨reads,final⟩ := Serial.serial_snapshot _ b.db unread fun _ _ _ _ => rfl
  refine ⟨?_,serialOrder b s,⟨serialOrder_nodup b s,fun i => mem_serialOrder,?_,?_⟩,?_⟩
  · intro k i j one two mine theirs
    exact one_writer fits sound (sound.good one) (sound.good two) mine theirs
  · rw [reads,map_map]; rfl
  · rw [final,flatMap_map]
    exact serialOrder_final fits sound stored complete
  · intro plain
    exact serialOrder_by_id fits isolation plain sound

end

-- Transaction 2 reads what 1 writes and is put before it; 3 only reads.
def reordered : Batch 3 Nat Nat where
  context := ⟨true,true,false⟩
  epoch := 1
  txns := ![⟨1,false,[(0,false)],[(1,fun seen => seen.sum + 10)]⟩,⟨2,false,[(1,false)],[(2,fun seen => seen.sum + 20)]⟩,
    ⟨3,false,[(1,false),(3,true)],[]⟩]
  db := fun k => k
  words := fun _ => 0

theorem serializable_reordered : ∃ s, Serializable reordered s ∧ s.db 1 = 10 ∧ s.db 2 = 21 := by
  obtain ⟨s,reached,complete,values⟩ := Machine.reached_of_run (machine reordered) ReservedFirst
    (fun s => s.Complete ∧ s.db 1 = 10 ∧ s.db 2 = 21)
    [.reserve 1,.reserve 0,.reserve 1,.reserve 0,.analyze 1,.decide 1,.analyze 0,.write 1,.analyze 2,.decide 2,.decide 0,.write 0]
    (by decide +kernel)
  have fits : Fits reordered := ⟨by decide,by decide,by decide,by decide,fun _ => (by decide : getEpoch 0 < 1)⟩
  have indexes : IndexesUnwritten reordered := by
    intro i j k other reads
    fin_cases i <;> simp [reordered] at reads
    subst reads
    fin_cases j <;> simp [reordered,Transaction.writtenKeys] at other ⊢
  exact ⟨s,serializable_of_batch_that_fits reordered s fits rfl indexes reached complete,values⟩

-- Both of these write key 0. An id past the 20 bits of a field leaves no trace in it, and
-- no word has an epoch past 24 bits.
def bothWrite (epoch id : Nat) : Batch 2 Nat Nat where
  context := ⟨false,false,false⟩
  epoch := epoch
  txns := ![⟨id,false,[],[(0,fun _ => 1)]⟩,⟨2*id,false,[],[(0,fun _ => 2)]⟩]
  db := fun _ => 0
  words := fun _ => 0

def oneByOne : List (Step 2) := [.reserve 0,.reserve 1,.analyze 0,.analyze 1,.decide 0,.decide 1,.write 0,.write 1]

-- Each reads through a local index what the other writes.
def writtenIndexes : Batch 2 Nat Nat where
  context := ⟨false,false,false⟩
  epoch := 1
  txns := ![⟨1,false,[(0,true)],[(1,fun seen => seen.sum + 1)]⟩,⟨2,false,[(1,true)],[(0,fun seen => seen.sum + 1)]⟩]
  db := fun _ => 0
  words := fun _ => 0

theorem both_share_a_key (epoch id : Nat)
    (ran : (((machine (bothWrite epoch id)).run ReservedFirst (initial (bothWrite epoch id)) oneByOne).map fun s =>
      decide (s.stages 0 = .committing [] ∧ s.stages 1 = .committing [] ∧ s.Complete)) = some true) :
    ∃ s, (machine (bothWrite epoch id)).Reached ReservedFirst s ∧ s.Complete ∧ ¬ Serializable (bothWrite epoch id) s := by
  obtain ⟨s,reached,one,two,complete⟩ := Machine.reached_of_run (machine (bothWrite epoch id)) ReservedFirst _ oneByOne ran
  refine ⟨s,reached,complete,?_⟩
  intro serializable
  have same := serializable.oneWriter 0 0 1 ⟨_,one⟩ ⟨_,two⟩ (mem_singleton_self 0) (mem_singleton_self 0)
  cases same

theorem bothWrite_indexes (epoch id : Nat) : IndexesUnwritten (bothWrite epoch id) := by
  intro i j k _ reads
  fin_cases i <;> simp [bothWrite] at reads

theorem written_indexes_cross : ∃ s, (machine writtenIndexes).Reached ReservedFirst s ∧ s.Complete ∧
    ¬ Serializable writtenIndexes s := by
  obtain ⟨s,reached,one,two,complete⟩ := Machine.reached_of_run (machine writtenIndexes) ReservedFirst
    (fun s => s.stages 0 = .committing [] ∧ s.stages 1 = .committing [] ∧ s.Complete) oneByOne (by decide +kernel)
  refine ⟨s,reached,complete,?_⟩
  rintro ⟨_,order,⟨once,committed,reads,_⟩,_⟩
  have all : order.Perm (List.finRange 2) := by
    rw [perm_ext_iff_of_nodup once (nodup_finRange 2)]
    intro i
    rw [committed i]
    fin_cases i
    · simpa using ⟨_,one⟩
    · simpa using ⟨_,two⟩
  obtain ⟨x,y,rfl⟩ := length_eq_two.mp all.length_eq
  have either : ∀ x y : Fin 2, [x,y].Nodup → Serial.observations ([x,y].map fun i => (writtenIndexes.txns i).toSerial)
      writtenIndexes.db ≠ [x,y].map fun i => (writtenIndexes.txns i).toSerial.observe writtenIndexes.db := by decide
  exact either x y once reads

theorem batch_conditions_needed :
    (¬ ∀ (b : Batch 2 Nat Nat) (s : State 2 Nat Nat), (∀ i j, (b.txns i).id = (b.txns j).id → i = j) →
      (∀ i, 0 < (b.txns i).id) → b.epoch < 2^24 → (∀ k, getEpoch (b.words k) < b.epoch) → b.context.snapshotIsolation = false →
      IndexesUnwritten b → (machine b).Reached ReservedFirst s → s.Complete → Serializable b s) ∧
    (¬ ∀ (b : Batch 2 Nat Nat) (s : State 2 Nat Nat), (∀ i j, (b.txns i).id = (b.txns j).id → i = j) →
      (∀ i, 0 < (b.txns i).id) → (∀ i, (b.txns i).id < 2^20) → (∀ k, getEpoch (b.words k) < b.epoch) →
      b.context.snapshotIsolation = false → IndexesUnwritten b → (machine b).Reached ReservedFirst s → s.Complete →
      Serializable b s) ∧
    ¬ ∀ (b : Batch 2 Nat Nat) (s : State 2 Nat Nat), Fits b → b.context.snapshotIsolation = false →
      (machine b).Reached ReservedFirst s → s.Complete → Serializable b s := by
  refine ⟨?_,?_,?_⟩
  · intro all
    obtain ⟨s,reached,complete,fails⟩ := both_share_a_key 1 (2^20) (by decide +kernel)
    exact fails (all _ s (by decide) (by decide) (by decide) (fun _ => (by decide : getEpoch 0 < 1)) rfl (bothWrite_indexes _ _)
      reached complete)
  · intro all
    obtain ⟨s,reached,complete,fails⟩ := both_share_a_key (2^24) 1 (by decide +kernel)
    exact fails (all _ s (by decide) (by decide) (by decide) (fun _ => (by decide : getEpoch 0 < 2^24)) rfl (bothWrite_indexes _ _)
      reached complete)
  intro all
  obtain ⟨s,reached,complete,fails⟩ := written_indexes_cross
  have fits : Fits writtenIndexes := ⟨by decide,by decide,by decide,by decide,fun _ => (by decide : getEpoch 0 < 1)⟩
  exact fails (all writtenIndexes s fits rfl reached complete)

end DbExp.Aria
