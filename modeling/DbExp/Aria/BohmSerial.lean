import DbExp.Aria.BohmRows

namespace DbExp.Bohm
open List
set_option linter.unusedSectionVars false
open Serial

section
variable {κ ν : Type} [DecidableEq κ]

def ReadFrom (left : Nat) (values : List (Option ν)) : Prop := ∀ j, left ≤ j → values[j]? ≠ some none

structure Seen (t : Txn κ ν) (db : κ → ν) (values : List (Option ν)) : Prop where
  length : values.length = t.reads.length
  right : ∀ (j : Nat) (v : ν), values[j]? = some (some v) → (t.observe db)[j]? = some v

theorem Seen.complete (seen : Seen t db values) (all : ReadFrom 0 values) : values = (t.observe db).map some := by
  apply ext_getElem?
  intro j
  rw [List.getElem?_map]
  cases got : values[j]? with
  | none =>
    have far := List.getElem?_eq_none_iff.mp got
    rw [List.getElem?_eq_none_iff.mpr (by simpa [Txn.observe,← seen.length] using far)]
    rfl
  | some value =>
    cases value with
    | none => exact absurd got (all j (by omega))
    | some v => rw [seen.right j v got]; rfl

theorem Seen.set (seen : Seen t db values) (read : t.reads[j]? = some key) : Seen t db (values.set j (some (db key))) := by
  refine ⟨by rw [length_set,seen.length],?_⟩
  intro l v got
  by_cases here : j = l
  · subst here
    have value : db key = v := by
      rw [List.getElem?_set_self'] at got
      cases old : values[j]? with
      | none => simp [old] at got
      | some x => simpa [old] using got
    rw [Txn.observe,List.getElem?_map,read,← value]; rfl
  · rw [List.getElem?_set_ne here] at got
    exact seen.right l v got

theorem ReadFrom.set (read : ReadFrom (j+1) values) : ReadFrom j (values.set j (some (v : ν))) := by
  intro l past
  by_cases here : j = l
  · subst here
    rw [List.getElem?_set_self']
    cases values[j]? <;> simp
  · rw [List.getElem?_set_ne here]
    exact read l (by omega)

theorem ReadFrom.skip (read : ReadFrom (j+1) values) (already : values[j]? = some (some (v : ν))) : ReadFrom j values := by
  intro l past
  by_cases here : j = l
  · subst here; rw [already]; simp
  · exact read l (by omega)

def Wrote (k : κ) : Phase κ ν → Prop
  | .reading _ _ => False
  | .committing todo => k ∉ todo.map Prod.fst

def Past (x : Worker κ ν) (j : Nat) (k : κ) : Prop := j < x.current ∨ j = x.current ∧ Wrote k x.phase

def PhaseSound (t : Txn κ ν) (db : κ → ν) (values : List (Option ν)) : Phase κ ν → Prop
  | .reading left notReady => left ≤ t.reads.length ∧ (notReady = false → ReadFrom left values)
  | .committing todo => ReadFrom 0 values ∧ todo <:+ t.effects (t.observe db)

variable {b : Batch κ ν}

open Classical in
noncomputable def cell (s : St b) (k : κ) (j : Nat) : Row ν :=
  if Past (s.workers (workerOf b j)) j k then ⟨b.tid j,0,b.before (j+1) k⟩ else holder b k j

structure Sound (s : St b) : Prop where
  aligned : ∀ w, workerOf b (s.workers w).current = w
  rows : ∀ k, s.rows k = (placed b k b.txns.length).map (cell s k) ++ b.rows k
  seen : ∀ i t, b.txns[i]? = some t → Seen t (b.before i) (s.values i)
  phases : ∀ w t, b.txns[(s.workers w).current]? = some t →
    PhaseSound t (b.before (s.workers w).current) (s.values (s.workers w).current) (s.workers w).phase
  finished : ∀ i t, b.txns[i]? = some t → Finished b s i → ReadFrom 0 (s.values i)

theorem cell_version (s : St b) (k : κ) (j : Nat) : (cell s k j).version = b.tid j := by
  unfold cell
  split <;> rfl

theorem cell_congr {s t : St b} (same : Past (s.workers (workerOf b j)) j k ↔ Past (t.workers (workerOf b j)) j k) :
    cell s k j = cell t k j := by
  by_cases past : Past (s.workers (workerOf b j)) j k
  · rw [cell,cell,if_pos past,if_pos (same.mp past)]
  · rw [cell,cell,if_neg past,if_neg fun other => past (same.mpr other)]

theorem begin_eq (here : b.txns[i]? = some t) : begin b i = .reading t.reads.length false := by
  unfold begin
  rw [here]; rfl

theorem begin_sound (here : b.txns[i]? = some t) (seen : Seen t db values) : PhaseSound t db values (begin b i) := by
  rw [begin_eq here]
  refine ⟨le_refl _,fun _ j past => ?_⟩
  rw [List.getElem?_eq_none (by rw [seen.length]; exact past)]
  simp

theorem initial_seen (here : b.txns[i]? = some t) : Seen t db ((initial b rows).values i) := by
  refine ⟨by simp [initial,here],?_⟩
  intro j v got
  have := mem_of_getElem? got
  simp [initial] at this

theorem initial_sound {rows : κ → List (Row ν)} (shape : ∀ k, rows k = (placed b k b.txns.length).map (holder b k) ++ b.rows k) :
    Sound (initial b rows) := by
  have early : ∀ j, ¬ j < j % b.workerNum := fun j less => absurd (Nat.mod_le j b.workerNum) (by omega)
  refine ⟨?_,?_,?_,?_,?_⟩
  · intro w
    exact Fin.ext (Nat.mod_eq_of_lt w.isLt)
  · intro k
    rw [show (initial b rows).rows k = rows k from rfl,shape k]
    congr 1
    apply map_congr_left
    intro j _
    refine (if_neg ?_).symm
    rintro (less | ⟨_,wrote⟩)
    · exact early j less
    · exact wrote
  · intro i t here
    exact initial_seen here
  · intro w t here
    exact begin_sound here (initial_seen here)
  · intro i t here done
    exact absurd done (early i)

def move (s : St b) (w : Fin b.workerNum) (rows : κ → List (Row ν)) (values : List (Option ν)) (phase : Phase κ ν) : St b where
  rows := rows
  values := Function.update s.values (s.workers w).current values
  workers := Function.update s.workers w ⟨(s.workers w).current,phase⟩

theorem setPhase_move (s : St b) (w : Fin b.workerNum) (phase : Phase κ ν) :
    setPhase b s w phase = move s w s.rows (s.values (s.workers w).current) phase := by
  unfold setPhase move
  rw [Function.update_eq_self]

inductive Move (b : Batch κ ν) (s : St b) (i : Nat) (t : Txn κ ν) :
    Phase κ ν → (κ → List (Row ν)) → List (Option ν) → Phase κ ν → Prop
  | skip (already : (s.values i)[j]? = some (some v)) :
    Move b s i t (.reading (j+1) notReady) s.rows (s.values i) (.reading j notReady)
  | read (key : t.reads[j]? = some k) (found : searchPrev (s.rows k) (b.tid i) = some row) (ready : row.placeholder = 0) :
    Move b s i t (.reading (j+1) notReady) s.rows ((s.values i).set j (some row.value)) (.reading j notReady)
  | wait (key : t.reads[j]? = some k) (found : searchPrev (s.rows k) (b.tid i) = some row) (unready : row.placeholder ≠ 0) :
    Move b s i t (.reading (j+1) notReady) s.rows (s.values i) (.reading j true)
  | retry : Move b s i t (.reading 0 true) s.rows (s.values i) (begin b i)
  | execute : Move b s i t (.reading 0 false) s.rows (s.values i) (.committing (t.effects (s.values i).reduceOption))
  | commit : Move b s i t (.committing ((k,v) :: rest))
    (Function.update s.rows k (update v (b.tid i) (s.rows k))) (s.values i) (.committing rest)

def passOn (s : St b) (w : Fin b.workerNum) : St b :=
  let i := (s.workers w).current + b.workerNum
  {s with workers := Function.update s.workers w ⟨i,begin b i⟩}

inductive Taken (b : Batch κ ν) (s : St b) (w : Fin b.workerNum) (t : Txn κ ν) : St b → Prop
  | move (done : Move b s (s.workers w).current t (s.workers w).phase rows values phase) : Taken b s w t (move s w rows values phase)
  | spin (reading : (s.workers w).phase = .reading (j+1) notReady) (key : t.reads[j]? = some k)
    (found : searchPrev (s.rows k) (b.tid (s.workers w).current) = some row) (unready : row.placeholder ≠ 0) : Taken b s w t s
  | next (ended : (s.workers w).phase = .committing []) :
    Taken b s w t (passOn s w)

theorem readKey_taken (spot : (s.workers w).phase = .reading (j+1) notReady) (taken : readKey b s w t j notReady = some s') :
    Taken b s w t s' := by
  dsimp only [readKey] at taken
  split at taken
  next v key already read =>
    rw [setPhase_move] at taken
    cases taken
    exact .move (spot ▸ .skip already)
  next key unread read =>
    split at taken
    · cases taken
    rename_i row got
    split at taken
    next ready =>
      cases taken
      exact .move (spot ▸ .read read got ready)
    rename_i unready
    split at taken
    · cases taken
      exact .spin spot read got unready
    · rw [setPhase_move] at taken
      cases taken
      exact .move (spot ▸ .wait read got unready)
  · cases taken

theorem commitKey_taken (spot : (s.workers w).phase = .committing ((key,value) :: rest))
    (taken : commitKey b s w key value rest = some s') : Taken b s w t s' := by
  dsimp only [commitKey] at taken
  split at taken
  · cases taken
  split at taken
  · cases taken
  · rw [setPhase_move] at taken
    cases taken
    exact .move (spot ▸ .commit)

theorem step_taken (taken : step b s w = some s') : ∃ t, b.txns[(s.workers w).current]? = some t ∧ Taken b s w t s' := by
  dsimp only [step] at taken
  split at taken
  · cases taken
  rename_i t here
  refine ⟨t,here,?_⟩
  split at taken
  next j notReady spot =>
    exact readKey_taken spot taken
  next spot =>
    rw [setPhase_move] at taken
    cases taken
    exact .move (spot ▸ .retry)
  next spot =>
    rw [setPhase_move] at taken
    cases taken
    exact .move (spot ▸ .execute)
  next key value rest spot =>
    exact commitKey_taken spot taken
  next spot =>
    cases taken
    exact .next spot

variable {s s' : St b} {w : Fin b.workerNum}

section
variable (aligned : workerOf b (s.workers w).current = w)
include aligned

theorem past_self : Past (s.workers (workerOf b (s.workers w).current)) (s.workers w).current k ↔ Wrote k (s.workers w).phase := by
  rw [aligned]
  simp [Past]

theorem past_move_self :
    Past ((move s w rows values phase).workers (workerOf b (s.workers w).current)) (s.workers w).current k ↔ Wrote k phase := by
  rw [aligned]
  simp [Past,move]

theorem past_move_other (other : j ≠ (s.workers w).current) :
    Past ((move s w rows values phase).workers (workerOf b j)) j k ↔ Past (s.workers (workerOf b j)) j k := by
  by_cases mine : workerOf b j = w
  · simp [mine,Past,move,other]
  · rw [show (move s w rows values phase).workers (workerOf b j) = s.workers (workerOf b j) from Function.update_of_ne mine _ _]

end

theorem Sound.rows_kept {rows : κ → List (Row ν)} (sound : Sound s)
    (same : b.writes (s.workers w).current k → (Wrote k (s.workers w).phase ↔ Wrote k phase)) :
    s.rows k = (placed b k b.txns.length).map (cell (move s w rows values phase) k) ++ b.rows k := by
  rw [sound.rows k]
  congr 1
  apply map_congr_left
  intro j mem
  apply cell_congr
  by_cases here : j = (s.workers w).current
  · subst here
    rw [past_self (sound.aligned w),past_move_self (sound.aligned w)]
    exact same (mem_placed.mp mem).2
  · exact (past_move_other (sound.aligned w) here).symm

theorem finished_move : Finished b (move s w rows values phase) j ↔ Finished b s j := by
  unfold Finished
  by_cases mine : workerOf b j = w
  · simp [move,mine]
  · simp [move,mine]

theorem Sound.move {rows : κ → List (Row ν)} (sound : Sound s) (here : b.txns[(s.workers w).current]? = some t)
    (shape : ∀ k, rows k = (placed b k b.txns.length).map (cell (move s w rows values phase) k) ++ b.rows k)
    (seen : Seen t (b.before (s.workers w).current) values)
    (right : PhaseSound t (b.before (s.workers w).current) values phase) : Sound (move s w rows values phase) := by
  refine ⟨?_,shape,?_,?_,?_⟩
  · exact (Function.forall_update_iff s.workers fun v x => workerOf b x.current = v).mpr ⟨sound.aligned w,fun v _ => sound.aligned v⟩
  · intro i u there
    by_cases mine : i = (s.workers w).current
    · subst mine
      cases here.symm.trans there
      simpa [Bohm.move] using seen
    · simpa [Bohm.move,mine] using sound.seen i u there
  · intro v u there
    by_cases mine : v = w
    · subst mine
      have there : b.txns[(s.workers v).current]? = some u := by simpa [Bohm.move] using there
      cases here.symm.trans there
      simpa [Bohm.move] using right
    have apart : (s.workers v).current ≠ (s.workers w).current := by
      intro same
      exact mine (by rw [← sound.aligned v,same,sound.aligned w])
    have there : b.txns[(s.workers v).current]? = some u := by simpa [Bohm.move,mine] using there
    simpa [Bohm.move,mine,apart] using sound.phases v u there
  intro i u there done
  have same := finished_move.mp done
  have apart : i ≠ (s.workers w).current := by
    rintro rfl
    rw [Finished,sound.aligned w] at same
    omega
  simpa [Bohm.move,apart] using sound.finished i u there same

theorem Sound.visible (sound : Sound s) (here : b.txns[i]? = some t) (k : κ) :
    ∃ row, searchPrev (s.rows k) (b.tid i) = some row ∧ (row.placeholder = 0 → row.value = b.before i k) ∧
      ((∀ j, j < i → Finished b s j) → row.placeholder = 0) := by
  have inside := (List.getElem?_eq_some_iff.mp here).1
  have limit := b.size_fits
  obtain ⟨_,split,bound⟩ := placed_split b k (Nat.le_of_lt inside)
  have skipped : searchPrev (s.rows k) (b.tid i) = searchPrev ((placed b k i).map (cell s k) ++ b.rows k) (b.tid i) := by
    rw [sound.rows k,split,map_append,append_assoc]
    apply searchPrev_skip
    intro r mem
    obtain ⟨j,there,rfl⟩ := mem_map.mp mem
    have known : j ∈ placed b k b.txns.length := by rw [split]; exact mem_append_left _ there
    have below := (mem_placed.mp known).1
    rw [cell_version]
    rcases Nat.lt_or_eq_of_le (bound j there) with less | rfl
    · exact Nat.le_of_lt (tid_lt b less (by omega))
    · exact le_refl _
  rw [skipped]
  rcases before_placed b k i with ⟨j,_,first,value⟩ | ⟨none,value⟩
  · have less : j < i := (mem_placed.mp (first ▸ mem_cons_self)).1
    rw [first,map_cons,cons_append,
      searchPrev_head (by rw [cell_version]; exact tid_lt b less (by omega))]
    refine ⟨_,rfl,?_,?_⟩
    · intro ready
      by_cases past : Past (s.workers (workerOf b j)) j k
      · rw [cell,if_pos past,value]
      have positive := epoch_pos b k
      have theirs := tid_eq b (show j < 2^32 by omega)
      have ready : b.tid j = 0 := by simpa only [cell,if_neg past,holder] using ready
      omega
    · intro done
      rw [cell,if_pos (.inl (done j less))]
  have chain := b.chains k
  have older := chain.older _ (head_mem chain.some)
  have mine := tid_eq b (show i < 2^32 by omega)
  rw [none,map_nil,nil_append,← cons_head_tail chain.some,searchPrev_head (by omega)]
  exact ⟨_,rfl,fun _ => value.symm,fun _ => chain.ready _ (head_mem chain.some)⟩

theorem Sound.pending (sound : Sound s) (here : b.txns[(s.workers w).current]? = some t)
    (todo : (s.workers w).phase = .committing ((k,v) :: rest)) :
    b.writes (s.workers w).current k ∧ v = b.before ((s.workers w).current + 1) k ∧ k ∉ rest.map Prod.fst ∧
      cell s k (s.workers w).current = holder b k (s.workers w).current := by
  have right := sound.phases w t here
  rw [todo] at right
  obtain ⟨_,_,split⟩ := right
  have once : ((t.effects (t.observe (b.before (s.workers w).current))).map Prod.fst).Nodup := by
    rw [t.effects_keys]
    exact b.once t (mem_of_getElem? here)
  have mem : (k,v) ∈ t.effects (t.observe (b.before (s.workers w).current)) := by rw [← split]; simp
  refine ⟨⟨t,here,?_⟩,?_,?_,?_⟩
  · rw [← t.effects_keys (t.observe (b.before (s.workers w).current))]
    exact mem_map_of_mem mem
  · rw [before_succ here]
    exact (install_mem once mem).symm
  · rw [← split,map_append,map_cons] at once
    exact (nodup_cons.mp (nodup_append.mp once).2.1).1
  · refine if_neg ?_
    rw [past_self (sound.aligned w),todo]
    simp [Wrote]

theorem tid_apart (b : Batch κ ν) (i : Nat) (small : i < 2^32) : ∀ j ∈ placed b k b.txns.length, j ≠ i → b.tid j ≠ b.tid i := by
  intro j mem apart
  have below := (mem_placed.mp mem).1
  have limit := b.size_fits
  have mine := tid_eq b small
  have theirs := tid_eq b (show j < 2^32 by omega)
  omega

theorem Sound.commit {rows : κ → List (Row ν)} (sound : Sound s) (here : b.txns[(s.workers w).current]? = some t)
    (todo : (s.workers w).phase = .committing ((k,v) :: rest)) (l : κ) :
    Function.update s.rows k (update v (b.tid (s.workers w).current) (s.rows k)) l =
      (placed b l b.txns.length).map (cell (Bohm.move s w rows values (.committing rest)) l) ++ b.rows l := by
  obtain ⟨writes,value,fresh,_⟩ := sound.pending here todo
  have inside := (List.getElem?_eq_some_iff.mp here).1
  by_cases same : l = k
  · subst same
    rw [Function.update_self,sound.rows l,← cell_version s l]
    apply update_map _ _ _ (placed_nodup b l _) (mem_placed.mpr ⟨inside,writes⟩)
    · intro j mem apart
      rw [cell_version,cell_version]
      exact tid_apart b _ (index_small here) j mem apart
    · have past : Past ((Bohm.move s w rows values (.committing rest)).workers (workerOf b (s.workers w).current)) (s.workers w).current l :=
        (past_move_self (sound.aligned w)).mpr fresh
      rw [cell_version,cell,if_pos past,value]
    · intro j mem apart
      exact cell_congr (past_move_other (sound.aligned w) apart)
  rw [Function.update_of_ne same]
  apply sound.rows_kept
  intro _
  rw [todo]
  simp [Wrote,same]

theorem behind {i j n : Nat} (positive : 0 < n) (same : j % n = i % n) : j < i + n ↔ j ≤ i := by
  refine ⟨fun below => ?_,fun below => by omega⟩
  by_contra above
  have none := Nat.sub_mod_eq_zero_of_mod_eq same
  rw [Nat.mod_eq_of_lt (by omega)] at none
  omega

theorem Sound.workers_behind (sound : Sound s) (mine : workerOf b j = w) : j < (s.workers w).current + b.workerNum ↔ j ≤ (s.workers w).current :=
  behind b.workers (congrArg Fin.val (mine.trans (sound.aligned w).symm))

theorem Sound.passOn (sound : Sound s) (here : b.txns[(s.workers w).current]? = some t) (ended : (s.workers w).phase = .committing []) :
    Sound (passOn s w) := by
  have right := sound.phases w t here
  rw [ended] at right
  refine ⟨?_,?_,sound.seen,?_,?_⟩
  · apply (Function.forall_update_iff s.workers fun v x => workerOf b x.current = v).mpr
    refine ⟨?_,fun v _ => sound.aligned v⟩
    exact (Fin.ext (Nat.add_mod_right _ _)).trans (sound.aligned w)
  · intro k
    rw [show (Bohm.passOn s w).rows k = s.rows k from rfl,sound.rows k]
    congr 1
    apply map_congr_left
    intro j _
    apply cell_congr
    by_cases mine : workerOf b j = w
    · have old : Past (s.workers w) j k ↔ j ≤ (s.workers w).current := by
        rw [Past,ended]
        simp [Wrote]; omega
      have new : Past ((Bohm.passOn s w).workers w) j k ↔ j ≤ (s.workers w).current := by
        rw [← sound.workers_behind mine]
        simp [Past,Bohm.passOn,begin,Wrote]
      rw [mine,old,new]
    · rw [show (Bohm.passOn s w).workers (workerOf b j) = s.workers (workerOf b j) from Function.update_of_ne mine _ _]
  · intro v u there
    by_cases mine : v = w
    · subst mine
      simp only [Bohm.passOn,Function.update_self] at there ⊢
      exact begin_sound there (sound.seen _ u there)
    · simp only [Bohm.passOn,Function.update_of_ne mine] at there ⊢
      exact sound.phases v u there
  intro i u there done
  change i < ((Bohm.passOn s w).workers (workerOf b i)).current at done
  by_cases mine : workerOf b i = w
  · simp only [Bohm.passOn,mine,Function.update_self] at done
    rcases Nat.lt_or_eq_of_le ((sound.workers_behind mine).mp done) with less | rfl
    · exact sound.finished i u there (by rw [Finished,mine]; exact less)
    · exact right.1
  · simp only [Bohm.passOn,Function.update_of_ne mine] at done
    exact sound.finished i u there done

theorem step_sound (sound : Sound s) (taken : step b s w = some s') : Sound s' := by
  obtain ⟨t,here,taken⟩ := step_taken taken
  have seen := sound.seen _ t here
  have right := sound.phases w t here
  cases taken with
  | spin => exact sound
  | next ended => exact sound.passOn here ended
  | move done =>
    generalize spot : (s.workers w).phase = phase at done right
    cases done with
    | skip already =>
      refine sound.move here (fun k => sound.rows_kept fun _ => by rw [spot]; rfl) seen ⟨by have := right.1; omega,?_⟩
      intro ready
      exact (right.2 ready).skip already
    | read key got ready =>
      obtain ⟨_,same,value,_⟩ := sound.visible here _
      cases got.symm.trans same
      rw [value ready]
      refine sound.move here (fun k => sound.rows_kept fun _ => by rw [spot]; rfl) (seen.set key) ⟨by have := right.1; omega,?_⟩
      intro all
      exact (right.2 all).set
    | wait =>
      exact sound.move here (fun k => sound.rows_kept fun _ => by rw [spot]; rfl) seen ⟨by have := right.1; omega,by simp⟩
    | retry =>
      exact sound.move here (fun k => sound.rows_kept fun _ => by rw [spot]; rfl) seen (begin_sound here seen)
    | execute =>
      have all := right.2 rfl
      have values : (s.values (s.workers w).current).reduceOption = t.observe (b.before (s.workers w).current) := by
        rw [seen.complete all]
        change List.filterMap id _ = _
        simp
      refine sound.move here (fun k => sound.rows_kept fun writes => ?_) seen ⟨all,by rw [values]⟩
      obtain ⟨_,there,wrote⟩ := writes
      cases here.symm.trans there
      rw [spot]
      simpa [Wrote,t.effects_keys] using wrote
    | commit =>
      rename_i k v rest
      obtain ⟨all,done,split⟩ := right
      exact sound.move here (sound.commit here spot) seen ⟨all,done ++ [(k,v)],by rw [← split]; simp⟩

theorem reached_sound (shape : ∀ k, rows k = (placed b k b.txns.length).map (holder b k) ++ b.rows k)
    (reached : (machine b rows).Reached Machine.anyStep s) : Sound s :=
  reached.invariant Sound (initial_sound shape) fun _ _ _ _ sound _ taken => step_sound sound taken

end
end DbExp.Bohm
