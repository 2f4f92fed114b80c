import DbExp.Aria.Pwv

namespace DbExp.Aria.Pwv
open Function List
open Serial
open Machine (anyStep reached_of_run)
variable {cfg : Config} {s t : State}

inductive Worked (cfg : Config) (s : State) (w : Nat) : State → Prop where
  | skip (current : cfg.batch[(s.position w).1]? = some q) (other : piecePartitionId q (s.position w).2 % cfg.workers ≠ w) :
      Worked cfg s w (move s w (next q (s.position w).1 (s.position w).2))
  | stock (current : cfg.batch[(s.position w).1]? = some q) (mine : piecePartitionId q (s.position w).2 % cfg.workers = w)
      (line : q.lines[(s.position w).2]? = some l) :
      Worked cfg s w (move (stockPiece s (s.position w).1 q (s.position w).2 l) w (next q (s.position w).1 (s.position w).2))
  | giveUp (current : cfg.batch[(s.position w).1]? = some q) (mine : piecePartitionId q (s.position w).2 % cfg.workers = w)
      (line : q.lines[(s.position w).2]? = none) (failed : s.commitRvp (s.position w).1 < 0) :
      Worked cfg s w (move s w ((s.position w).1 + 1,0))
  | warehouse (current : cfg.batch[(s.position w).1]? = some q) (mine : piecePartitionId q (s.position w).2 % cfg.workers = w)
      (first : (s.position w).2 = q.lines.length) (ready : s.commitRvp (s.position w).1 = 0) :
      Worked cfg s w (move (warehousePiece s (s.position w).1) w (next q (s.position w).1 (s.position w).2))
  | order (current : cfg.batch[(s.position w).1]? = some q) (mine : piecePartitionId q (s.position w).2 % cfg.workers = w)
      (last : q.lines.length < (s.position w).2) (ready : s.commitRvp (s.position w).1 = 0) :
      Worked cfg s w (move (orderPiece cfg s (s.position w).1 q) w (next q (s.position w).1 (s.position w).2))

theorem step_worked (taken : step cfg s (.work w) = some t) : w < cfg.workers ∧ Worked cfg s w t := by
  simp only [step,Option.ite_none_right_eq_some] at taken
  refine ⟨taken.1,?_⟩
  have taken := taken.2
  simp only [work] at taken
  split at taken
  · cases taken
  rename_i q current
  split at taken
  next other =>
    cases taken
    exact .skip current other
  rename_i mine
  rw [not_not] at mine
  split at taken
  next l line =>
    cases taken
    exact .stock current mine line
  rename_i line
  split at taken
  next failed =>
    cases taken
    exact .giveUp current mine line failed
  split at taken
  next ready =>
    have past := List.getElem?_eq_none_iff.mp line
    cases taken
    split
    next first =>
      exact .warehouse current mine first ready
    next further =>
      exact .order current mine (Nat.lt_of_le_of_ne past (Ne.symm further)) ready
  · cases taken

theorem Worked.district (worked : Worked cfg s w t) : t.rows.district = s.rows.district := by
  cases worked with
  | stock current mine line =>
    simp only [move,stockPiece]
    split <;> rfl
  | _ => rfl

theorem reached_district (reached : (machine cfg).Reached anyStep s) : s.rows.district = cfg.rows.district := by
  apply reached.invariant (fun s => s.rows.district = cfg.rows.district) rfl
  intro s a t _ same _ taken
  cases a with
  | work w => exact (step_worked taken).2.district.trans same

theorem newOrder_nextOId (q : Query) (rows : Rows) (key : Nat × Nat) :
    ((newOrder q rows).district key).nextOId = (rows.district key).nextOId + if q.valid ∧ (q.wId,q.dId) = key then 1 else 0 := by
  unfold newOrder
  split
  next valid =>
    by_cases same : (q.wId,q.dId) = key
    · subst same
      simp [valid]
    · simp [same,update_of_ne (Ne.symm same)]
  next invalid =>
    simp [invalid]

theorem serial_nextOId (batch : List Query) (rows : Rows) (key : Nat × Nat) :
    ((serial batch rows).district key).nextOId =
      (rows.district key).nextOId + batch.countP fun q => decide (q.valid ∧ (q.wId,q.dId) = key) := by
  induction batch generalizing rows with
  | nil => simp [serial]
  | cons q batch ih =>
    change ((serial batch (newOrder q rows)).district key).nextOId = _
    rw [ih,newOrder_nextOId,countP_cons]
    by_cases mine : q.valid ∧ (q.wId,q.dId) = key
    · simp only [mine,and_self,if_true,decide_true]
      omega
    · simp [mine]

-- All pieces of a transaction belong to the worker of its home partition.
def HomeSupplied (cfg : Config) : Prop :=
  ∀ q ∈ cfg.batch, ∀ l ∈ q.lines, (l.supplyWId - 1) % cfg.workers = q.partitionId % cfg.workers

def stockAfter (cfg : Config) (i : Nat) : Nat × Int → StockRow := (serial (cfg.batch.take i) cfg.rows).stock

theorem stockAfter_succ (current : cfg.batch[i]? = some q) (valid : q.valid = true) :
    stockAfter cfg (i + 1) = install (stockAfter cfg i) (q.lines.map fun l => (l.key,computeStock q.wId l (stockAfter cfg i l.key))) := by
  unfold stockAfter
  rw [take_add_one,current]
  simp only [Option.toList_some,serial,foldl_append,foldl_cons,foldl_nil]
  rw [newOrder,if_pos valid]

structure WorkerSound (cfg : Config) (s : State) (w i k : Nat) : Prop where
  rows : ∀ key : Nat × Int, (key.1 - 1) % cfg.workers = w → s.rows.stock key = stockAfter cfg i key
  values : ∀ q, cfg.batch[i]? = some q → q.partitionId % cfg.workers = w → ∀ j l, q.lines[j]? = some l → j < k →
    (s.storages i).stockValues j = computeStock q.wId l (stockAfter cfg i l.key)
  rvp : ∀ q, cfg.batch[i]? = some q → q.partitionId % cfg.workers = w → s.commitRvp i = q.lines.length - min k q.lines.length
  later : ∀ j, i < j → ∀ q, cfg.batch[j]? = some q → q.partitionId % cfg.workers = w → s.commitRvp j = q.lines.length

theorem WorkerSound.frame (sound : WorkerSound cfg s w i k)
    (rows : ∀ key : Nat × Int, (key.1 - 1) % cfg.workers = w → t.rows.stock key = s.rows.stock key)
    (own : ∀ j q, cfg.batch[j]? = some q → q.partitionId % cfg.workers = w →
      (t.storages j).stockValues = (s.storages j).stockValues ∧ t.commitRvp j = s.commitRvp j) : WorkerSound cfg t w i k where
  rows := fun key mine => (rows key mine).trans (sound.rows key mine)
  values := by
    intro q current mine j l line before
    rw [(own i q current mine).1]
    exact sound.values q current mine j l line before
  rvp := fun q current mine => (own i q current mine).2.trans (sound.rvp q current mine)
  later := fun j after q current mine => (own j q current mine).2.trans (sound.later j after q current mine)

section
variable (home : HomeSupplied cfg) (valid : ∀ q ∈ cfg.batch, q.valid = true)
include home

theorem HomeSupplied.piece {i : Nat} (current : cfg.batch[i]? = some q) (k : Nat) :
    piecePartitionId q k % cfg.workers = q.partitionId % cfg.workers := by
  unfold piecePartitionId
  split
  next l line =>
    exact home q (mem_of_getElem? current) l (mem_of_getElem? line)
  · rfl

include valid

section
variable (sound : WorkerSound cfg s w i k) (current : cfg.batch[i]? = some q)
include sound current

theorem WorkerSound.pass (other : q.partitionId % cfg.workers ≠ w) : WorkerSound cfg s w (i + 1) 0 where
  rows := by
    intro key mine
    rw [sound.rows key mine,stockAfter_succ current (valid q (mem_of_getElem? current)),install_other]
    intro written
    obtain ⟨l,line,rfl⟩ : ∃ l ∈ q.lines, l.key = key := by simpa using written
    exact other ((home q (mem_of_getElem? current) l line).symm.trans mine)
  values := by
    intro q _ _ j l _ before
    cases before
  rvp := by
    intro q current mine
    simpa using sound.later (i + 1) (Nat.lt_succ_self i) q current mine
  later := fun j after => sound.later j (by omega)

theorem WorkerSound.skip (other : q.partitionId % cfg.workers ≠ w) : WorkerSound cfg s w (next q i k).1 (next q i k).2 := by
  unfold next
  split
  · have notMine : ∀ q', cfg.batch[i]? = some q' → q'.partitionId % cfg.workers ≠ w := by
      intro q' same
      rw [current] at same
      cases same
      exact other
    exact ⟨sound.rows,fun q' same mine => absurd mine (notMine q' same),fun q' same mine => absurd mine (notMine q' same),sound.later⟩
  · exact sound.pass home valid current other

theorem WorkerSound.stock (mine : q.partitionId % cfg.workers = w)
    (line : q.lines[k]? = some l) : WorkerSound cfg (stockPiece s i q k l) w (next q i k).1 (next q i k).2 := by
  have inRange : k < q.lines.length := (List.getElem?_eq_some_iff.mp line).1
  have listed : l ∈ q.lines := mem_of_getElem? line
  have inBatch : q ∈ cfg.batch := mem_of_getElem? current
  have used : l.iId ≠ 0 := by simpa using all_eq_true.mp (valid q inBatch) l listed
  have read : s.rows.stock l.key = stockAfter cfg i l.key := sound.rows l.key ((home q inBatch l listed).trans mine)
  simp only [next,if_pos (Nat.le_of_lt inRange),stockPiece,if_neg used]
  refine ⟨sound.rows,?_,?_,?_⟩
  · intro q' same home j m atLine before
    rw [current] at same
    cases same
    simp only [update_self,setStock]
    by_cases here : j = k
    · subst here
      rw [line] at atLine
      cases atLine
      rw [update_self,read]
    · rw [update_of_ne here]
      exact sound.values q current home j m atLine (by omega)
  · intro q' same home
    rw [current] at same
    cases same
    have known := sound.rvp q current home
    simp only [update_self]
    omega
  intro j after q' same home
  have other : j ≠ i := by omega
  simp only [update_of_ne other]
  exact sound.later j after q' same home

end

omit home valid in
theorem WorkerSound.warehouse (sound : WorkerSound cfg s w i q.lines.length) (current : cfg.batch[i]? = some q) :
    WorkerSound cfg (warehousePiece s i) w i (q.lines.length + 1) where
  rows := sound.rows
  values := by
    intro q' same home j l line _
    rw [current] at same
    cases same
    have inRange := (List.getElem?_eq_some_iff.mp line).1
    simp only [warehousePiece,update_self]
    exact sound.values q current home j l line inRange
  rvp := by
    intro q' same home
    have known := sound.rvp q' same home
    rw [current] at same
    cases same
    simp only [warehousePiece]
    omega
  later := sound.later

omit home in
theorem WorkerSound.order (sound : WorkerSound cfg s w i k) (current : cfg.batch[i]? = some q) (mine : q.partitionId % cfg.workers = w)
    (last : q.lines.length < k) : WorkerSound cfg (orderPiece cfg s i q) w (i + 1) 0 where
  rows := by
    intro key own
    have same : (q.lines.zipIdx.map fun l => (l.1.key,(s.storages i).stockValues l.2)) =
        q.lines.map fun l => (l.key,computeStock q.wId l (stockAfter cfg i l.key)) := by
      apply ext_getElem?
      intro j
      rw [List.getElem?_map,List.getElem?_map,List.getElem?_zipIdx]
      cases line : q.lines[j]? with
      | none => rfl
      | some l =>
        have inRange := (List.getElem?_eq_some_iff.mp line).1
        have value := sound.values q current mine j l line (by omega)
        simp [value]
    simp only [orderPiece]
    rw [same,stockAfter_succ current (valid q (mem_of_getElem? current))]
    exact install_congr (.inr (sound.rows key own))
  values := by
    intro q _ _ j l _ before
    cases before
  rvp := by
    intro q' same home
    simpa [orderPiece] using sound.later (i + 1) (Nat.lt_succ_self i) q' same home
  later := fun j after => sound.later j (by omega)

theorem WorkerSound.own (sound : WorkerSound cfg s w (s.position w).1 (s.position w).2) (worked : Worked cfg s w t) :
    WorkerSound cfg t w (t.position w).1 (t.position w).2 := by
  have moved : ∀ u place, WorkerSound cfg u w place.1 place.2 →
      WorkerSound cfg (move u w place) w ((move u w place).position w).1 ((move u w place).position w).2 := by
    intro u place after
    simp only [move,update_self]
    exact after.frame (fun _ _ => rfl) (fun _ _ _ _ => ⟨rfl,rfl⟩)
  cases worked with
  | skip current other =>
    rw [home.piece current] at other
    exact moved _ _ (sound.skip home valid current other)
  | stock current mine line =>
    rw [home.piece current] at mine
    exact moved _ _ (sound.stock home valid current mine line)
  | giveUp current mine line failed =>
    rw [home.piece current] at mine
    have known := sound.rvp _ current mine
    omega
  | warehouse current mine first ready =>
    rw [first] at sound
    apply moved
    rw [next,if_pos (by omega),first]
    exact sound.warehouse current
  | order current mine last ready =>
    rw [home.piece current] at mine
    apply moved
    rw [next,if_neg (by omega)]
    exact sound.order valid current mine last

omit valid in
theorem WorkerSound.others (sound : WorkerSound cfg s w i k) (worked : Worked cfg s v t) (other : w ≠ v) : WorkerSound cfg t w i k := by
  -- a transaction of this worker is not the one that the other is at
  have apart : ∀ q, cfg.batch[(s.position v).1]? = some q → piecePartitionId q (s.position v).2 % cfg.workers = v →
      ∀ j p, cfg.batch[j]? = some p → p.partitionId % cfg.workers = w → j ≠ (s.position v).1 := by
    intro q current mine j p there own same
    rw [same,current] at there
    cases there
    rw [home.piece current] at mine
    exact other (own.symm.trans mine)
  cases worked with
  | skip current _ | giveUp current _ _ _ => exact sound.frame (fun _ _ => rfl) (fun _ _ _ _ => ⟨rfl,rfl⟩)
  | stock current mine line =>
    refine sound.frame ?_ ?_
    · intro key _
      simp only [move,stockPiece]
      split <;> rfl
    intro j p there own
    have away := apart _ current mine j p there own
    simp only [move,stockPiece]
    split <;> simp [away]
  | warehouse current mine _ _ =>
    refine sound.frame (fun _ _ => rfl) ?_
    intro j p there own
    have away := apart _ current mine j p there own
    simp [move,warehousePiece,away]
  | @order q current mine last ready =>
    refine sound.frame ?_ (fun _ _ _ _ => ⟨rfl,rfl⟩)
    intro key own
    simp only [move,orderPiece]
    apply install_other
    intro written
    obtain ⟨l,j,line,rfl⟩ : ∃ l j, (l,j) ∈ q.lines.zipIdx ∧ l.key = key := by simpa using written
    rw [home.piece current] at mine
    have listed : l ∈ q.lines := (mem_zipIdx line).2.2 ▸ getElem_mem _
    exact other (own.symm.trans ((home q (mem_of_getElem? current) l listed).trans mine))

theorem reached_workers (reached : (machine cfg).Reached anyStep s) :
    ∀ w, w < cfg.workers → WorkerSound cfg s w (s.position w).1 (s.position w).2 := by
  apply reached.invariant (fun s => ∀ w, w < cfg.workers → WorkerSound cfg s w (s.position w).1 (s.position w).2)
  · intro w _
    refine ⟨fun _ _ => rfl,?_,?_,?_⟩
    · intro q _ _ j l _ before
      cases before
    · intro q current _
      simp only [machine,initial] at current ⊢
      simp [current]
    · intro j _ q current _
      simp [machine,initial,current]
  intro s a t _ sound _ taken
  cases a with
  | work v =>
    obtain ⟨_,worked⟩ := step_worked taken
    intro w inRange
    by_cases same : w = v
    · subst same
      exact (sound w inRange).own home valid worked
    have still : t.position w = s.position w := by
      cases worked with
      | stock =>
        simp only [move,stockPiece]
        split <;> exact update_of_ne same _ _
      | _ => exact update_of_ne same _ _
    rw [still]
    exact (sound w inRange).others home worked same

end

theorem reached_empty (empty : cfg.batch = []) (reached : (machine cfg).Reached anyStep s) : s = initial cfg := by
  induction reached with
  | initial => rfl
  | @step before after a _ _ taken _ =>
    cases a with
    | work w =>
      obtain ⟨_,worked⟩ := step_worked taken
      have none : ∀ q, cfg.batch[(before.position w).1]? ≠ some q := by simp [empty]
      cases worked with
      | skip current _ | stock current _ _ | giveUp current _ _ _ | warehouse current _ _ _ | order current _ _ _ => exact absurd current (none _)

-- No run of a batch with an order in it leaves the rows of a serial execution, because the
-- district rows are never written. The stock rows alone are those of a serial execution
-- when every transaction is run by one worker.
theorem rows_serial_iff_empty (valid : ∀ q ∈ cfg.batch, q.valid = true) (reached : (machine cfg).Reached anyStep s)
    (completed : Completed cfg s) :
    (s.rows = serial cfg.batch cfg.rows ↔ cfg.batch = []) ∧
    (0 < cfg.workers → HomeSupplied cfg → s.rows.stock = (serial cfg.batch cfg.rows).stock) := by
  refine ⟨⟨?_,?_⟩,?_⟩
  · intro same
    cases batch : cfg.batch with
    | nil => rfl
    | cons q rest =>
      have unchanged := reached_district reached
      have numbered := serial_nextOId cfg.batch cfg.rows (q.wId,q.dId)
      rw [← same,unchanged] at numbered
      have counted : 0 < cfg.batch.countP fun p => decide (p.valid ∧ (p.wId,p.dId) = (q.wId,q.dId)) := by
        have listed : q ∈ cfg.batch := by rw [batch]; exact mem_cons_self
        exact countP_pos_iff.mpr ⟨q,listed,by simp [valid q listed]⟩
      omega
  · intro empty
    rw [reached_empty empty reached,empty]
    rfl
  intro staffed home
  funext key
  have inRange := Nat.mod_lt (key.1 - 1) staffed
  have sound := (reached_workers home valid reached _ inRange).rows key rfl
  rw [completed _ inRange,stockAfter,take_length] at sound
  exact sound

def someRows : Rows := ⟨fun _ => ⟨0,0⟩,fun _ => ⟨0,0,1⟩,fun _ => ⟨100,0,0,0⟩⟩

def castRow (d : DistrictRow) : WarehouseRow := ⟨d.tax,d.ytd⟩

def oneOrder : Config := ⟨1,[⟨0,1,[⟨7,1,5⟩]⟩],castRow,someRows,fun _ => ⟨⟨0,0,0⟩,fun _ => ⟨0,0,0,0⟩⟩⟩

theorem rows_serial_iff_empty_one : ∃ s, (machine oneOrder).Reached anyStep s ∧ Completed oneOrder s ∧
    s.rows ≠ serial oneOrder.batch oneOrder.rows ∧ s.rows.stock = (serial oneOrder.batch oneOrder.rows).stock := by
  obtain ⟨s,reached,place⟩ := reached_of_run (machine oneOrder) anyStep (fun s => s.position 0 = (1,0))
    [.work 0,.work 0,.work 0] (by decide +kernel)
  have completed : Completed oneOrder s := by
    intro worker inRange
    rw [show worker = 0 from Nat.lt_one_iff.mp inRange,place]
    rfl
  have home : HomeSupplied oneOrder := by
    intro q _ l _
    exact (Nat.mod_one _).trans (Nat.mod_one _).symm
  obtain ⟨whole,stock⟩ := rows_serial_iff_empty (by decide) reached completed
  exact ⟨s,reached,completed,fun same => cons_ne_nil _ _ (whole.mp same),stock (by decide) home⟩

-- Two orders of one stock row in the second partition, the first from a home in the first.
def sharedStock : Config := { oneOrder with workers := 2, batch := [⟨0,1,[⟨7,2,5⟩]⟩,⟨1,1,[⟨7,2,5⟩]⟩] }

-- One worker runs both stock pieces and the second order before the other worker writes
-- back the stock row of the first order: one update is lost. No district is counted up.
theorem orders_not_serial :
    (¬ ∀ (cfg : Config) (s : State), (∀ q ∈ cfg.batch, q.valid = true) → (machine cfg).Reached anyStep s → Completed cfg s →
      s.rows.stock = (serial cfg.batch cfg.rows).stock) ∧
    ¬ ∀ (cfg : Config) (s : State), (∀ q ∈ cfg.batch, q.valid = true) → (machine cfg).Reached anyStep s → Completed cfg s →
      s.rows.district = (serial cfg.batch cfg.rows).district := by
  obtain ⟨s,reached,first,second,quantity,number⟩ := reached_of_run (machine sharedStock) anyStep
    (fun s => s.position 0 = (2,0) ∧ s.position 1 = (2,0) ∧ (s.rows.stock (2,7)).quantity = 95 ∧
      (s.rows.district (1,1)).nextOId = 1)
    (List.replicate 6 (.work 1) ++ List.replicate 6 (.work 0)) (by decide +kernel)
  have completed : Completed sharedStock s := by
    intro worker inRange
    have cases : worker = 0 ∨ worker = 1 := by
      have : worker < 2 := inRange
      omega
    rcases cases with rfl | rfl
    · rw [first]; rfl
    · rw [second]; rfl
  refine ⟨?_,?_⟩
  · intro claim
    have same := claim sharedStock s (by decide) reached completed
    rw [same] at quantity
    exact absurd quantity (by decide)
  intro claim
  have same := claim sharedStock s (by decide) reached completed
  rw [same] at number
  exact absurd number (by decide)

end DbExp.Aria.Pwv
