import DbExp.Aria.Reservations

namespace DbExp.Aria.RowWords
open BitField
open List

structure Request where
  writes : Bool
  slot : Nat
  coordinator : Nat
  deriving DecidableEq, Repr

-- `AriaExecutor::read_snapshot`: tid starts from 1
def Request.id (nodes : Nat) (r : Request) : Nat := r.slot * nodes + r.coordinator + 1

def Request.reserve (nodes epoch : Nat) (w : Word) (r : Request) : Option Word :=
  if r.writes then reserveWrite w epoch (r.id nodes) else reserveRead w epoch (r.id nodes)

-- The manager's 32-bit epoch and the word of one row; a batch lists the reservations
-- made on that row in the order in which they reach it.
structure State where
  epoch : Nat
  word : Word
  deriving DecidableEq, Repr

def State.batch (nodes : Nat) (s : State) (requests : List Request) : Option State :=
  let epoch := (s.epoch + 1) % 2^32
  (requests.foldlM (Request.reserve nodes epoch) s.word).map (State.mk epoch)

def run (nodes : Nat) (batches : List (List Request)) : Option State :=
  batches.foldlM (State.batch nodes) ⟨0,0⟩

def Reserving (nodes : Nat) (writes : Bool) (requests : List Request) (y : Nat) : Prop :=
  ∃ r ∈ requests, r.writes = writes ∧ r.id nodes = y

def State.Records (nodes : Nat) (s : State) (requests : List Request) : Prop :=
  getEpoch s.word = s.epoch ∧ Least (getRts s.word) (Reserving nodes false requests) ∧
    Least (getWts s.word) (Reserving nodes true requests)

def Assigned (batchSize nodes : Nat) (requests : List Request) : Prop :=
  ∀ r ∈ requests, r.slot < batchSize ∧ r.coordinator < nodes

def KeepsReservations (batchSize nodes rounds : Nat) : Prop :=
  ∀ batches last, batches.length < rounds → (∀ requests ∈ batches, Assigned batchSize nodes requests) →
    Assigned batchSize nodes last → last ≠ [] →
    ∃ s, run nodes (batches ++ [last]) = some s ∧ s.epoch = batches.length + 1 ∧ s.Records nodes last

@[simp]
theorem reserving_cons : Reserving nodes writes (r :: requests) y ↔
    r.writes = writes ∧ y = r.id nodes ∨ Reserving nodes writes requests y := by
  simp [Reserving,eq_comm (a := y)]

section
variable {nodes epoch : Nat} {w : Word} {readers writers : Nat → Prop}

theorem reserve_marks (r : Request) (marks : Marks epoch w readers writers) (small : r.id nodes < 2^20)
    (fits : epoch < 2^24) : ∃ v, r.reserve nodes epoch w = some v ∧
      Marks epoch v (fun y => r.writes = false ∧ y = r.id nodes ∨ readers y)
        (fun y => r.writes = true ∧ y = r.id nodes ∨ writers y) := by
  have positive : 0 < r.id nodes := Nat.succ_pos _
  unfold Request.reserve
  cases r.writes with
  | true =>
    obtain ⟨v,done,after⟩ := reserveWrite_marks marks positive small fits
    exact ⟨v,done,after.congr (fun _ => by tauto) fun _ => by tauto⟩
  | false =>
    obtain ⟨v,done,after⟩ := reserveRead_marks marks positive small fits
    exact ⟨v,done,after.congr (fun _ => by tauto) fun _ => by tauto⟩

theorem reserves_marks (fits : epoch < 2^24) (requests : List Request) (small : ∀ r ∈ requests, r.id nodes < 2^20)
    (marks : Marks epoch w readers writers) : ∃ v, requests.foldlM (Request.reserve nodes epoch) w = some v ∧
      Marks epoch v (fun y => Reserving nodes false requests y ∨ readers y)
        (fun y => Reserving nodes true requests y ∨ writers y) := by
  induction requests generalizing w readers writers with
  | nil => exact ⟨w,rfl,marks.congr (by simp [Reserving]) (by simp [Reserving])⟩
  | cons r requests next =>
    obtain ⟨v,done,first⟩ := reserve_marks r marks (small r (.head _)) fits
    obtain ⟨u,rest,after⟩ := next (fun q mem => small q (.tail _ mem)) first
    refine ⟨u,by rw [foldlM_cons,done]; exact rest,after.congr ?_ ?_⟩ <;>
      exact fun y => by rw [reserving_cons,or_left_comm,or_assoc]

end

theorem id_le (r : Request) (slot : r.slot < batchSize) (node : r.coordinator < nodes) :
    r.id nodes ≤ batchSize * nodes := by
  have := Nat.mul_le_mul_right nodes (Nat.succ_le_of_lt slot)
  simp only [Request.id,Nat.succ_mul] at *
  omega

theorem run_marks (nodes : Nat) (batches : List (List Request)) (fits : batches.length < 2^24)
    (small : ∀ requests ∈ batches, ∀ r ∈ requests, r.id nodes < 2^20) : ∃ s, run nodes batches = some s ∧ s.epoch = batches.length ∧
      Marks s.epoch s.word (Reserving nodes false (batches.getLastD [])) (Reserving nodes true (batches.getLastD [])) := by
  induction batches using List.reverseRecOn with
  | nil =>
    have none (kind) : Least 0 (Reserving nodes kind []) := .inl ⟨rfl,by simp [Reserving]⟩
    exact ⟨⟨0,0⟩,rfl,rfl,.inr ⟨get_zero _ _,none _,none _⟩⟩
  | append_singleton batches last before =>
    rw [length_append] at fits ⊢
    obtain ⟨s,done,epoch,marks⟩ := before (by omega) fun requests mem => small requests (mem_append_left _ mem)
    have old : getEpoch s.word ≤ s.epoch := marks.elim (·.1.le) (·.1.le)
    obtain ⟨v,step,after⟩ := reserves_marks (epoch ▸ fits) last (small last (by simp))
      (.inl ⟨Nat.lt_succ_of_le old,fun _ => id,fun _ => id⟩ : Marks (s.epoch + 1) s.word (fun _ => False) fun _ => False)
    refine ⟨⟨s.epoch + 1,v⟩,?_,congrArg (· + 1) epoch,?_⟩
    · rw [run,foldlM_append,← run,done]
      simp [State.batch,Nat.mod_eq_of_lt (show s.epoch + 1 < 4294967296 by omega),step]
    · rw [getLastD_concat]
      exact after.congr (fun _ => or_iff_left id) fun _ => or_iff_left id

theorem keeps_of_fits (batchSize nodes : Nat) (ids : batchSize * nodes < 2^20) (epochs : rounds < 2^24) :
    KeepsReservations batchSize nodes rounds := by
  intro batches last length before assigned some
  obtain ⟨s,done,epoch,marks⟩ := run_marks nodes (batches ++ [last]) (by simp; omega) fun requests mem r here => by
    have all : Assigned batchSize nodes requests := by
      rcases mem_append.mp mem with old | new
      · exact before requests old
      · exact mem_singleton.mp new ▸ assigned
    exact (id_le r (all r here).1 (all r here).2).trans_lt ids
  rw [getLastD_concat] at marks
  refine ⟨s,done,by simpa using epoch,marks.resolve_left fun none => ?_⟩
  obtain ⟨r,mem⟩ := exists_mem_of_ne_nil last some
  cases kind : r.writes with
  | false => exact none.2.1 _ ⟨r,mem,kind,rfl⟩
  | true => exact none.2.2 _ ⟨r,mem,kind,rfl⟩

theorem get_lt (offset width : Nat) (v : Word) : get offset width v < 2^width := by
  refine Nat.lt_pow_two_of_testBit _ fun i far => ?_
  rw [get_bit,decide_eq_false (Nat.not_lt.mpr far),Bool.and_false]

theorem keeps_reservations_iff (batchSize nodes rounds : Nat) : KeepsReservations batchSize nodes rounds ↔
    rounds = 0 ∨ batchSize * nodes = 0 ∨ rounds < 2^24 ∧ batchSize * nodes < 2^20 := by
  constructor
  · -- A lone writer with the largest id in the last round shows both bounds.
    intro keeps
    by_contra wide
    push Not at wide
    obtain ⟨some,ids,wide⟩ := wide
    have positive : 0 < nodes := Nat.pos_of_mul_pos_left (Nat.pos_of_ne_zero ids)
    let k := batchSize * nodes - 1
    let r : Request := ⟨true,k / nodes,k % nodes⟩
    have largest : r.id nodes = batchSize * nodes := by
      have := Nat.div_add_mod' k nodes
      simp only [Request.id,r]
      omega
    have assigned : Assigned batchSize nodes [r] := by
      simp only [Assigned,mem_singleton,forall_eq]
      exact ⟨Nat.div_lt_of_lt_mul (by rw [mul_comm]; omega),Nat.mod_lt _ positive⟩
    obtain ⟨s,_,epoch,current,_,least⟩ := keeps (List.replicate (rounds - 1) []) [r] (by rw [length_replicate]; omega)
      (fun requests member => by rw [eq_of_mem_replicate member]; exact nofun) assigned nofun
    have written : getWts s.word = batchSize * nodes := by
      rcases least with ⟨_,none⟩ | ⟨_,⟨_,member,_,same⟩,_⟩
      · exact absurd ⟨r,.head _,rfl,rfl⟩ (none _)
      · rw [← same,mem_singleton.mp member,largest]
    have narrow := get_lt 0 20 s.word
    have early := get_lt 40 24 s.word
    rw [length_replicate] at epoch
    simp only [getWts,getEpoch] at written current
    omega
  rintro (rfl | none | ⟨epochs,ids⟩)
  · exact fun _ _ length => absurd length (Nat.not_lt_zero _)
  · intro batches last _ _ assigned some
    obtain ⟨r,member⟩ := exists_mem_of_ne_nil last some
    have := id_le r (assigned r member).1 (assigned r member).2
    simp only [none,Request.id] at this
    omega
  · exact keeps_of_fits _ _ ids epochs

-- With 2^20 ids the last one, writing alone, leaves a reader 1 and no writer.
theorem last_id_reserves_as_reader : Assigned (2^20) 1 [⟨true,2^20 - 1,0⟩] ∧
    (run 1 [[⟨true,2^20 - 1,0⟩]]).map (fun s => (getEpoch s.word,getRts s.word,getWts s.word)) = some (1,1,0) :=
  ⟨by simp [Assigned],by decide +kernel⟩

end DbExp.Aria.RowWords
