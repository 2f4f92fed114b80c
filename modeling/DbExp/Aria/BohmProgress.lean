import DbExp.Aria.BohmSerial

namespace DbExp.Bohm
set_option linter.unusedSectionVars false
open Serial

section
variable {κ ν : Type} [DecidableEq κ] {b : Batch κ ν} {s s' : St b} {w : Fin b.workerNum}

theorem Sound.found (sound : Sound s) (here : b.txns[(s.workers w).current]? = some t)
    (todo : (s.workers w).phase = .committing ((k,v) :: rest)) :
    search (s.rows k) (b.tid (s.workers w).current) = some (holder b k (s.workers w).current) := by
  obtain ⟨writes,_,_,unready⟩ := sound.pending here todo
  have inside := (List.getElem?_eq_some_iff.mp here).1
  rw [sound.rows k,← cell_version s k,search_map _ _ (mem_placed.mpr ⟨inside,writes⟩),unready]
  intro j mem apart
  rw [cell_version,cell_version]
  exact tid_apart b _ (index_small here) j mem apart

theorem Sound.step_defined (sound : Sound s) (here : b.txns[(s.workers w).current]? = some t) : ∃ s', step b s w = some s' := by
  have right := sound.phases w t here
  unfold step
  simp only [here]
  cases spot : (s.workers w).phase with
  | reading left notReady =>
    rw [spot] at right
    cases left with
    | zero => cases notReady <;> exact ⟨_,rfl⟩
    | succ j =>
      have inside : j < t.reads.length := right.1
      have key := List.getElem?_eq_getElem inside
      obtain ⟨value,stored⟩ : ∃ value, (s.values (s.workers w).current)[j]? = some value :=
        ⟨_,List.getElem?_eq_getElem (by rw [(sound.seen _ t here).length]; exact inside)⟩
      obtain ⟨_,got,_⟩ := sound.visible here (t.reads[j])
      simp only [readKey,stored,key]
      cases value with
      | some v => exact ⟨_,rfl⟩
      | none =>
        simp only [got]
        split
        · exact ⟨_,rfl⟩
        · split <;> exact ⟨_,rfl⟩
  | committing todo =>
    cases todo with
    | nil => exact ⟨_,rfl⟩
    | cons write rest =>
      obtain ⟨k,v⟩ := write
      have positive := epoch_pos b k
      have mine := tid_eq b (index_small here)
      have unready : ¬ (holder b k (s.workers w).current).placeholder = 0 := by simp only [holder]; omega
      simp only [commitKey,sound.found here spot,if_neg unready]
      exact ⟨_,rfl⟩

def effort (t : Txn κ ν) : Phase κ ν → Nat
  | .reading left notReady => t.writes.length + 2 + left + if notReady then t.reads.length + 1 else 0
  | .committing todo => todo.length + 1

theorem move_effort (sound : Sound s) (here : b.txns[i]? = some t) (earlier : ∀ j, j < i → Finished b s j)
    (done : Move b s i t phase rows values next) : effort t next < effort t phase := by
  cases done with
  | skip | read => simp only [effort]; omega
  | wait key got unready =>
    obtain ⟨_,same,_,ready⟩ := sound.visible here _
    cases got.symm.trans same
    exact absurd (ready earlier) unready
  | retry => rw [begin_eq here]; simp only [effort]; simp
  | execute => simp [effort,Txn.effects]
  | commit => simp [effort]

theorem unfinished_first (s : St b) (ongoing : ¬ Complete b s) :
    ∃ i, i < b.txns.length ∧ ¬ Finished b s i ∧ ∀ j, j < i → Finished b s j := by
  have some : ∃ i, i < b.txns.length ∧ ¬ Finished b s i := by
    simpa [Complete] using ongoing
  refine ⟨Nat.find some,(Nat.find_spec some).1,(Nat.find_spec some).2,?_⟩
  intro j less
  by_contra unfinished
  exact Nat.find_min some less ⟨Nat.lt_trans less (Nat.find_spec some).1,unfinished⟩

theorem Sound.first_finishes {rows : κ → List (Row ν)} (sound : Sound s) (here : b.txns[i]? = some t) (earlier : ∀ j, j < i → Finished b s j)
    (unfinished : ¬ Finished b s i) :
    ∃ k s', (machine b rows).run Machine.anyStep s (List.replicate k (workerOf b i)) = some s' ∧ Finished b s' i := by
  let running := fun s : St b => Sound s ∧ (∀ j, j < i → Finished b s j) ∧ (s.workers (workerOf b i)).current = i
  apply (machine b rows).run_until (workerOf b i) running (fun s => Finished b s i)
    fun s => effort t (s.workers (workerOf b i)).phase
  · intro s ⟨sound,earlier,current⟩
    obtain ⟨s',taken⟩ := sound.step_defined (current.symm ▸ here)
    refine ⟨s',taken,?_⟩
    have kept := step_sound sound taken
    obtain ⟨_,same,cases⟩ := step_taken taken
    rw [current] at same
    cases here.symm.trans same
    cases cases with
    | spin reading key got unready =>
      rw [current] at got
      obtain ⟨_,same,_,ready⟩ := sound.visible here _
      cases got.symm.trans same
      exact absurd (ready earlier) unready
    | next ended =>
      left
      have positive := b.workers
      simp only [Finished,Bohm.passOn,Function.update_self,current]
      omega
    | move done =>
      right
      refine ⟨⟨kept,fun j less => finished_move.mpr (earlier j less),?_⟩,?_⟩
      · simpa [Bohm.move] using current
      · rw [current] at done
        simpa [Bohm.move] using move_effort sound here earlier done
  refine ⟨sound,earlier,?_⟩
  -- a worker before transaction `i` would be at an earlier unfinished one
  rcases Nat.lt_or_eq_of_le (Nat.le_of_not_lt unfinished) with less | same
  · have done := earlier _ less
    rw [Finished,sound.aligned] at done
    omega
  · exact same

theorem Sound.newest (sound : Sound s) (complete : Complete b s) (k : κ) :
    ∃ row rest, s.rows k = row :: rest ∧ row.placeholder = 0 ∧ row.value = serial b.txns b.start k := by
  have final : serial b.txns b.start = b.before b.txns.length := by rw [Batch.before,List.take_length]
  rw [sound.rows k,final]
  rcases before_placed b k b.txns.length with ⟨j,rest,first,value⟩ | ⟨none,value⟩
  · have inside := (mem_placed.mp (first ▸ List.mem_cons_self)).1
    rw [first,List.map_cons,cell,if_pos (.inl (complete j inside)),value]
    exact ⟨_,_,rfl,rfl,rfl⟩
  · have chain := b.chains k
    refine ⟨(b.rows k).head chain.some,(b.rows k).tail,?_,chain.ready _ (List.head_mem chain.some),value.symm⟩
    rw [none,List.map_nil,List.nil_append,List.cons_head_tail]

theorem Sound.observed (sound : Sound s) (here : b.txns[i]? = some t) (done : Finished b s i) :
    some (s.values i) = (observations b.txns b.start)[i]?.map (List.map some) := by
  rw [observations_get,here,(sound.seen i t here).complete (sound.finished i t here done)]
  rfl

theorem batch_serial_in_id_order (b : Batch κ ν) : ∃ rows, insertWriteSets b 0 b.txns b.rows = some rows ∧
    ∀ s, (machine b rows).Reached Machine.anyStep s →
      (Complete b s → ∀ k, ∃ row rest, s.rows k = row :: rest ∧ row.placeholder = 0 ∧ row.value = serial b.txns b.start k) ∧
      (∀ i, i < b.txns.length → Finished b s i → some (s.values i) = (observations b.txns b.start)[i]?.map (List.map some)) ∧
      (¬ Complete b s → ∃ i w k s', i < b.txns.length ∧ ¬ Finished b s i ∧
        (machine b rows).run Machine.anyStep s (List.replicate k w) = some s' ∧ Finished b s' i) := by
  obtain ⟨rows,inserted,shape⟩ := insertWriteSets_spec b
  refine ⟨rows,inserted,?_⟩
  intro s reached
  have sound := reached_sound shape reached
  refine ⟨sound.newest,?_,?_⟩
  · intro i inside done
    exact sound.observed (List.getElem?_eq_getElem inside) done
  intro incomplete
  obtain ⟨i,inside,unfinished,earlier⟩ := unfinished_first s incomplete
  obtain ⟨k,s',path,done⟩ := sound.first_finishes (List.getElem?_eq_getElem inside) earlier unfinished
  exact ⟨i,_,k,s',inside,unfinished,path,done⟩

end

def successor : Txn Bool Nat := ⟨[false],[(false,fun seen => seen.sum + 1)]⟩

def copy : Txn Bool Nat := ⟨[true,false],[(true,List.sum)]⟩

def pairBatch : Batch Bool Nat where
  epoch := 1
  txns := [successor,copy]
  prepared := fun _ _ => 0
  rows := fun k => [⟨0,0,if k then 5 else 7⟩]
  workerNum := 2
  singleSpin := false
  epoch_fits := by decide
  size_fits := by decide
  workers := Nat.zero_lt_two
  once := by decide
  chains := fun k => ⟨by simp,by simp,by simp,by simp⟩

def pairRows : Bool → List (Row Nat) := (insertWriteSets pairBatch 0 pairBatch.txns pairBatch.rows).getD pairBatch.rows

theorem batch_serial_after_retry : insertWriteSets pairBatch 0 pairBatch.txns pairBatch.rows = some pairRows ∧
    ∃ s, (machine pairBatch pairRows).Reached Machine.anyStep s ∧ Complete pairBatch s ∧
      (∃ row rest, s.rows true = row :: rest ∧ row.placeholder = 0 ∧ row.value = 13) ∧ s.values 1 = [some 5,some 8] := by
  obtain ⟨rows,inserted,holds⟩ := batch_serial_in_id_order pairBatch
  obtain rfl : pairRows = rows := by
    rw [pairRows,inserted]; rfl
  obtain ⟨s,reached,complete⟩ := Machine.reached_of_run (machine pairBatch pairRows) Machine.anyStep (fun s => Complete pairBatch s)
    ([1,0,1,1,0,0,0,1,1,1,1,1] : List (Fin 2)) (by decide +kernel)
  obtain ⟨newest,observed,_⟩ := holds s reached
  refine ⟨inserted,s,reached,complete,newest complete true,?_⟩
  have values := observed 1 (by decide) (complete 1 (by decide))
  exact Option.some_inj.mp values

end DbExp.Bohm
