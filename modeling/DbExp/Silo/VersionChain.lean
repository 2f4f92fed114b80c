import DbExp.Silo.SnapshotGc
import Mathlib.Data.List.Induction

namespace DbExp.Silo
open List

abbrev Bytes := List UInt8

def maxTid : Nat := 2 ^ 64 - 1

-- An id from gen_commit_tid: its number is one more than some other, and it is not the id
-- that stands for none.
structure CommitTid where
  core : Nat
  num : Nat
  epoch : Nat
  coreFits : core ≤ coreMask
  numPositive : 0 < num
  numFits : num ≤ maxNumId
  notMax : makeTid core num epoch < maxTid

def CommitTid.tid (t : CommitTid) : Nat := makeTid t.core t.num t.epoch

theorem CommitTid.tid_ne_minTid (t : CommitTid) : t.tid ≠ minTid := by
  have positive := t.numPositive
  rw [CommitTid.tid,makeTid_eq t.coreFits t.numFits,minTid]
  omega

structure Write where
  commit : CommitTid
  value : Option Bytes

namespace Write

def tid (w : Write) : Nat := w.commit.tid

def size (w : Write) : Nat := (w.value.getD []).length

def stored (w : Write) : Option Bytes := if w.size = 0 then none else w.value

end Write

def nodeSizeMax : Nat := 2 ^ 16 - 1

def nodeSize (n : Nat) : Nat := n % 2 ^ 16

-- tuple.h: the fields of a dbtuple that reads and writes look at. The value is what is in its
-- buffer, which may be more than the record.
structure Dbtuple where
  tuple : Nat
  version : Nat
  deleting : Bool
  latest : Bool
  size : Nat
  allocSize : Nat
  value : Bytes
  deriving DecidableEq

-- What is left of an allocation, rounded up to 16 bytes, behind the 24 bytes of the header.
def allocSizeFor (needed : Nat) : Nat := min ((24 + needed + 15) / 16 * 16) (nodeSizeMax + 24) - 24

namespace Dbtuple

def first (w : Write) : Dbtuple :=
  ⟨0,w.tid,decide (w.size = 0),true,nodeSize w.size,nodeSize (allocSizeFor w.size),w.value.getD []⟩

def alloc (fresh : Nat) (base : Dbtuple) : Dbtuple :=
  ⟨fresh,base.version,base.deleting,false,base.size,nodeSize (allocSizeFor base.size),base.value.take base.size⟩

def allocSpill (fresh : Nat) (w : Write) : Dbtuple :=
  ⟨fresh,w.tid,decide (w.size = 0),true,nodeSize w.size,nodeSize (allocSizeFor w.size),w.value.getD []⟩

def inPlace (d : Dbtuple) (w : Write) : Dbtuple :=
  {d with
    value := w.value.getD [] ++ d.value.drop w.size
    version := w.tid
    size := nodeSize w.size
    deleting := d.deleting || decide (w.size = 0)}

def clearLatest (d : Dbtuple) : Dbtuple := {d with latest := false}

def oldSize (d : Dbtuple) : Nat := if d.deleting then 0 else d.size

def read (d : Dbtuple) : Option Bytes := if d.oldSize = 0 then none else some (d.value.take d.oldSize)

end Dbtuple

structure Record where
  head : Dbtuple
  older : List Dbtuple
  fresh : Nat
  deriving DecidableEq

def recordAtChain (t : Nat) : List Dbtuple → Nat × Option Bytes
  | [] => (minTid,none)
  | d :: rest => if d.version ≤ t then (d.version,d.read) else recordAtChain t rest

namespace Record

def chain (r : Record) : List Dbtuple := r.head :: r.older

def first (w : Write) : Record := ⟨.first w,[],1⟩

def stableRead (r : Record) (t : Nat) : Nat × Option Bytes :=
  if r.head.version = maxTid then (minTid,none) else recordAtChain t r.chain

def writeRecordAt (multiplier : Nat) (r : Record) (w : Write) : Record :=
  if canOverwriteRecordTid multiplier r.head.version w.tid ∧ r.head.oldSize ≠ 0 then
    if w.size ≤ r.head.allocSize then {r with head := r.head.inPlace w}
    else ⟨.allocSpill r.fresh w,r.head.clearLatest :: r.older,r.fresh + 1⟩
  else if w.size ≤ r.head.allocSize ∧ r.head.oldSize ≠ 0 then
    ⟨r.head.inPlace w,.alloc r.fresh r.head :: r.older,r.fresh + 1⟩
  else ⟨.allocSpill r.fresh w,r.head.clearLatest :: r.older,r.fresh + 1⟩

def run (multiplier : Nat) (first : Write) (rest : List Write) : Record :=
  rest.foldl (writeRecordAt multiplier) (.first first)

end Record

def lastAt (t : Nat) (writes : List Write) : Option Bytes := (writes.filter fun w => w.tid ≤ t).getLast?.bind Write.stored

theorem lastAt_append (t : Nat) (writes : List Write) (w : Write) :
    lastAt t (writes ++ [w]) = if w.tid ≤ t then w.stored else lastAt t writes := by
  unfold lastAt
  rw [filter_append]
  by_cases seen : w.tid ≤ t
  · simp [seen]
  · simp [seen]

theorem le_computeReadOnlyTid_iff (committed : tid ≠ minTid) :
    tid ≤ computeReadOnlyTid multiplier e ↔ toReadOnlyTick multiplier (epochId tid) < e / multiplier := by
  refine ⟨fun seen => ?_,le_computeReadOnlyTid⟩
  dsimp only [computeReadOnlyTid] at seen
  split at seen
  · exact absurd (Nat.le_zero.mp seen) committed
  rename_i later
  have early : epochId tid ≤ e / multiplier * multiplier - 1 := by
    rw [makeTid_eq le_rfl le_rfl] at seen
    rw [epochId_eq]
    simp only [coreMask,coreBits,maxNumId,nBitsNumber] at seen
    omega
  have positive : 0 < multiplier := Nat.pos_of_ne_zero fun zero => later (by rw [zero,Nat.mul_zero])
  exact (Nat.div_lt_iff_lt_mul positive).mpr (by omega)

theorem seen_alike (prev cur : CommitTid) (overwrite : canOverwriteRecordTid multiplier prev.tid cur.tid = true) :
    prev.tid ≤ computeReadOnlyTid multiplier e ↔ cur.tid ≤ computeReadOnlyTid multiplier e := by
  simp only [canOverwriteRecordTid,Bool.or_eq_true,beq_iff_eq,prev.tid_ne_minTid,or_false] at overwrite
  rw [le_computeReadOnlyTid_iff prev.tid_ne_minTid,le_computeReadOnlyTid_iff cur.tid_ne_minTid,overwrite]

namespace Dbtuple
variable {d : Dbtuple} {w : Write}

theorem read_of_size (size : d.size = w.size) (deleting : d.deleting = decide (w.size = 0))
    (value : d.value.take w.size = w.value.getD []) : d.read = w.stored := by
  unfold read oldSize Write.stored
  rw [size,deleting]
  by_cases empty : w.size = 0
  · simp [empty]
  cases got : w.value with
  | none => exact absurd (by rw [Write.size,got]; rfl) empty
  | some v =>
    rw [got] at value
    simp [empty,value]

theorem notDeleting_of_oldSize (there : d.oldSize ≠ 0) : d.deleting = false := by
  by_contra deleting
  exact there (if_pos (by simpa using deleting))

theorem nodeSize_of_le (small : w.size ≤ nodeSizeMax) : nodeSize w.size = w.size := by
  unfold nodeSizeMax at small
  exact Nat.mod_eq_of_lt (by omega)

theorem read_first (small : w.size ≤ nodeSizeMax) : (first w).read = w.stored :=
  read_of_size (nodeSize_of_le small) rfl (by rw [first,Write.size,take_length])

theorem read_allocSpill (fresh : Nat) (small : w.size ≤ nodeSizeMax) : (allocSpill fresh w).read = w.stored :=
  read_of_size (nodeSize_of_le small) rfl (by rw [allocSpill,Write.size,take_length])

theorem read_inPlace (there : d.oldSize ≠ 0) (small : w.size ≤ nodeSizeMax) : (d.inPlace w).read = w.stored := by
  refine read_of_size (nodeSize_of_le small) ?_ ?_
  · rw [inPlace,notDeleting_of_oldSize there,Bool.false_or]
  · rw [inPlace,Write.size,take_left]

theorem read_alloc (fresh : Nat) : (alloc fresh d).read = d.read := by
  unfold read oldSize alloc
  cases d.deleting with
  | true => rfl
  | false => simp [take_take]

end Dbtuple

structure Answers (multiplier : Nat) (r : Record) (writes : List Write) (last : Write) : Prop where
  latest : r.head.version = last.tid
  reads : ∀ e, (recordAtChain (computeReadOnlyTid multiplier e) r.chain).2 = lastAt (computeReadOnlyTid multiplier e) writes
  descending : r.chain.Pairwise fun newer older => older.version < newer.version

section
variable {multiplier : Nat} {r : Record} {writes : List Write} {last w : Write}

theorem Answers.first (small : w.size ≤ nodeSizeMax) : Answers multiplier (Record.first w) [w] w := by
  refine ⟨rfl,fun e => ?_,pairwise_singleton _ _⟩
  have alone := lastAt_append (computeReadOnlyTid multiplier e) [] w
  rw [nil_append] at alone
  rw [alone]
  change (if w.tid ≤ _ then (w.tid,(Dbtuple.first w).read) else (minTid,none)).2 = _
  rw [Dbtuple.read_first small]
  split <;> rfl

section
variable (answers : Answers multiplier r writes last) (later : last.tid < w.tid)
include answers later

theorem Answers.push {head old : Dbtuple}
    (version : head.version = w.tid) (value : head.read = w.stored) (oldVersion : old.version = r.head.version)
    (oldValue : old.read = r.head.read) : Answers multiplier ⟨head,old :: r.older,fresh⟩ (writes ++ [w]) w := by
  obtain ⟨below,sorted⟩ := pairwise_cons.mp answers.descending
  refine ⟨version,fun e => ?_,?_⟩
  · have before := answers.reads e
    rw [Record.chain,recordAtChain] at before
    rw [lastAt_append,Record.chain,recordAtChain,recordAtChain,version,value,oldVersion,oldValue,← before]
    split <;> rfl
  refine pairwise_cons.mpr ⟨fun d mem => ?_,pairwise_cons.mpr ⟨fun d mem => ?_,sorted⟩⟩
  · rw [version]
    rcases mem_cons.mp mem with rfl | older
    · rwa [oldVersion,answers.latest]
    · exact (below d older).trans (answers.latest.trans_lt later)
  · rw [oldVersion]
    exact below d mem

theorem Answers.replace (overwrite : canOverwriteRecordTid multiplier last.tid w.tid = true) {head : Dbtuple}
    (version : head.version = w.tid) (value : head.read = w.stored) : Answers multiplier {r with head := head} (writes ++ [w]) w := by
  obtain ⟨below,sorted⟩ := pairwise_cons.mp answers.descending
  refine ⟨version,fun e => ?_,?_⟩
  · have before := answers.reads e
    have alike : last.tid ≤ computeReadOnlyTid multiplier e ↔ w.tid ≤ computeReadOnlyTid multiplier e :=
      seen_alike last.commit w.commit overwrite
    rw [Record.chain,recordAtChain,answers.latest] at before
    rw [lastAt_append,Record.chain,recordAtChain,version,value]
    split
    · rfl
    next hidden =>
      rwa [if_neg (fun seen => hidden (alike.mp seen))] at before
  · refine pairwise_cons.mpr ⟨fun d mem => ?_,sorted⟩
    rw [version]
    exact (below d mem).trans (answers.latest.trans_lt later)

theorem Answers.write (small : w.size ≤ nodeSizeMax) :
    Answers multiplier (r.writeRecordAt multiplier w) (writes ++ [w]) w := by
  have spilled : Answers multiplier ⟨.allocSpill r.fresh w,r.head.clearLatest :: r.older,r.fresh + 1⟩ (writes ++ [w]) w :=
    answers.push later rfl (Dbtuple.read_allocSpill r.fresh small) rfl rfl
  unfold Record.writeRecordAt
  split
  next overwrite =>
    split
    · rw [answers.latest] at overwrite
      exact answers.replace later overwrite.1 rfl (Dbtuple.read_inPlace overwrite.2 small)
    · exact spilled
  · split
    next fits =>
      exact answers.push later rfl (Dbtuple.read_inPlace fits.2 small) rfl (Dbtuple.read_alloc r.fresh)
    · exact spilled

end

end

theorem answers_of_run (multiplier : Nat) (first : Write) (rest : List Write) (sizes : ∀ w ∈ first :: rest, w.size ≤ nodeSizeMax)
    (increasing : (first :: rest).Pairwise fun a b => a.tid < b.tid) :
    ∃ last ∈ first :: rest, Answers multiplier (Record.run multiplier first rest) (first :: rest) last ∧
      ∀ w ∈ first :: rest, w.tid ≤ last.tid := by
  induction rest using List.reverseRecOn with
  | nil =>
    refine ⟨first,mem_cons_self,.first (sizes first mem_cons_self),fun w mem => ?_⟩
    rw [mem_singleton.mp mem]
  | append_singleton before w ih =>
    rw [← cons_append] at sizes increasing ⊢
    obtain ⟨sorted,_,above⟩ := pairwise_append.mp increasing
    have later {v : Write} (mem : v ∈ first :: before) : v.tid < w.tid := above v mem w mem_cons_self
    obtain ⟨last,mem,answers,_⟩ := ih (fun v mem => sizes v (mem_append_left _ mem)) sorted
    refine ⟨w,mem_append_right _ mem_cons_self,?_,fun v held => ?_⟩
    · rw [Record.run,foldl_append]
      exact answers.write (later mem) (sizes w (mem_append_right _ mem_cons_self))
    · rcases mem_append.mp held with old | new
      · exact (later old).le
      · rw [mem_singleton.mp new]

theorem snapshots_read_last_write (multiplier : Nat) (first : Write) (rest : List Write)
    (sizes : ∀ w ∈ first :: rest, w.size ≤ nodeSizeMax) (increasing : (first :: rest).Pairwise fun a b => a.tid < b.tid) :
    (∀ e, ((Record.run multiplier first rest).stableRead (computeReadOnlyTid multiplier e)).2 =
      lastAt (computeReadOnlyTid multiplier e) (first :: rest)) ∧
    (Record.run multiplier first rest).chain.Pairwise fun newer older => older.version < newer.version := by
  obtain ⟨last,_,answers,_⟩ := answers_of_run multiplier first rest sizes increasing
  refine ⟨fun e => ?_,answers.descending⟩
  have committed : (Record.run multiplier first rest).head.version ≠ maxTid := by
    rw [answers.latest]
    exact Nat.ne_of_lt last.commit.notMax
  rw [Record.stableRead,if_neg committed]
  exact answers.reads e

-- Without the values this is the chain that is collected: a tuple that is not deleted has a
-- record in it.
def Dbtuple.erase (d : Dbtuple) : Version := ⟨d.tuple,d.version,d.deleting⟩

def Dbtuple.Sized (d : Dbtuple) : Prop := d.deleting = false ↔ d.size ≠ 0

section
variable {w : Write}

theorem erase_inPlace {d : Dbtuple} (there : d.oldSize ≠ 0) : (d.inPlace w).erase = ⟨d.tuple,w.tid,decide (w.size = 0)⟩ := by
  rw [Dbtuple.erase,Dbtuple.inPlace,Dbtuple.notDeleting_of_oldSize there,Bool.false_or]

theorem sized_of_write {d : Dbtuple} (small : w.size ≤ nodeSizeMax) (size : d.size = nodeSize w.size)
    (deleting : d.deleting = decide (w.size = 0)) : d.Sized := by
  rw [Dbtuple.Sized,size,Dbtuple.nodeSize_of_le small,deleting,decide_eq_false_iff_not]

theorem writeRecordAt_sized (r : Record) (small : w.size ≤ nodeSizeMax) : (r.writeRecordAt multiplier w).head.Sized := by
  have inPlace (there : r.head.oldSize ≠ 0) : (r.head.inPlace w).Sized := by
    refine sized_of_write small rfl ?_
    rw [Dbtuple.inPlace,Dbtuple.notDeleting_of_oldSize there,Bool.false_or]
  have spilled : (Dbtuple.allocSpill r.fresh w).Sized := sized_of_write small rfl rfl
  unfold Record.writeRecordAt
  split
  next overwrite =>
    split
    · exact inPlace overwrite.2
    · exact spilled
  · split
    next fits =>
      exact inPlace fits.2
    · exact spilled

theorem erase_writeRecordAt {r : Record} (sized : r.head.Sized) :
    (r.writeRecordAt multiplier w).chain.map Dbtuple.erase = (writeRecordAt multiplier r.fresh w.tid (decide (w.size = 0))
      (decide (w.size ≤ r.head.allocSize)) (r.chain.map Dbtuple.erase)).1 := by
  have roomy : (decide (w.size = 0) || decide (w.size ≤ r.head.allocSize)) = decide (w.size ≤ r.head.allocSize) := by
    by_cases empty : w.size = 0
    · simp [empty]
    · simp [empty]
  rw [Record.chain,Record.chain,map_cons,map_cons,Silo.writeRecordAt,roomy,Record.writeRecordAt]
  cases deleting : r.head.deleting with
  | true =>
    have vacant : r.head.oldSize = 0 := if_pos deleting
    simp [vacant,Dbtuple.erase,deleting,Dbtuple.clearLatest,Dbtuple.allocSpill]
  | false =>
    have there : r.head.oldSize ≠ 0 := by
      rw [Dbtuple.oldSize,deleting]
      exact sized.mp deleting
    have replaced : (r.head.inPlace w).erase = ⟨r.head.tuple,w.tid,decide (w.size = 0)⟩ := erase_inPlace there
    have copied : (Dbtuple.alloc r.fresh r.head).erase = ⟨r.fresh,r.head.version,false⟩ := by rw [Dbtuple.erase,Dbtuple.alloc,deleting]
    have erased : r.head.erase = ⟨r.head.tuple,r.head.version,false⟩ := by rw [Dbtuple.erase,deleting]
    rw [erased]
    by_cases fits : w.size ≤ r.head.allocSize
    · by_cases overwrite : canOverwriteRecordTid multiplier r.head.version w.tid = true
      · simp [there,fits,overwrite,replaced]
      · simp [there,fits,overwrite,replaced,copied]
    · by_cases overwrite : canOverwriteRecordTid multiplier r.head.version w.tid = true
      · simp [there,fits,overwrite,Dbtuple.erase,deleting,Dbtuple.clearLatest,Dbtuple.allocSpill]
      · simp [there,fits,overwrite,Dbtuple.erase,deleting,Dbtuple.clearLatest,Dbtuple.allocSpill]

theorem recordAtChain_erase (t : Nat) (chain : List Dbtuple) :
    (recordAtChain t chain).1 = ((recordAt t (chain.map Dbtuple.erase)).map Version.version).getD minTid := by
  induction chain with
  | nil => rfl
  | cons d rest ih =>
    rw [recordAtChain,map_cons,recordAt]
    by_cases seen : d.version ≤ t
    · rw [if_pos seen,if_pos (show d.erase.version ≤ t from seen)]
      rfl
    · rw [if_neg seen,if_neg (show ¬ d.erase.version ≤ t from seen)]
      exact ih

end

def ChainWrite (multiplier : Nat) (w : Write) (a b : List Version) : Prop :=
  ∃ fresh room, b = (writeRecordAt multiplier fresh w.tid (decide (w.size = 0)) room a).1

inductive ChainWrites (multiplier : Nat) : List Write → List Version → List Version → Prop where
  | nil : ChainWrites multiplier [] chain chain
  | snoc : ChainWrites multiplier writes a b → ChainWrite multiplier w b c → ChainWrites multiplier (writes ++ [w]) a c

theorem run_writes_chain (multiplier : Nat) (first : Write) (rest : List Write) (sizes : ∀ w ∈ first :: rest, w.size ≤ nodeSizeMax) :
    ChainWrites multiplier rest [(Dbtuple.first first).erase]
      ((Record.run multiplier first rest).chain.map Dbtuple.erase) ∧
    ∀ t, (recordAtChain t (Record.run multiplier first rest).chain).1 =
      ((recordAt t ((Record.run multiplier first rest).chain.map Dbtuple.erase)).map Version.version).getD minTid := by
  suffices kept : _ ∧ (Record.run multiplier first rest).head.Sized from ⟨kept.1,fun t => recordAtChain_erase t _⟩
  induction rest using List.reverseRecOn with
  | nil => exact ⟨.nil,sized_of_write (sizes first mem_cons_self) rfl rfl⟩
  | append_singleton before w ih =>
    obtain ⟨path,sized⟩ := ih fun v mem => sizes v (mem_append_left [w] mem)
    rw [Record.run,foldl_append]
    exact ⟨path.snoc ⟨_,_,erase_writeRecordAt sized⟩,writeRecordAt_sized _ (sizes w (by simp))⟩

-- A value, a delete of the same read-only epoch in its place, and a longer value after two more.
theorem three_le_coreMask : 3 ≤ coreMask := by decide

theorem one_le_maxNumId : 1 ≤ maxNumId := by decide

theorem two_le_maxNumId : 2 ≤ maxNumId := by decide

theorem firstTid_lt : makeTid 3 1 2 < maxTid := by decide

theorem deleteTid_lt : makeTid 3 2 2 < maxTid := by decide

theorem longTid_lt : makeTid 3 1 7 < maxTid := by decide

def firstCommit : CommitTid := ⟨3,1,2,three_le_coreMask,Nat.zero_lt_one,one_le_maxNumId,firstTid_lt⟩

def deleteCommit : CommitTid := ⟨3,2,2,three_le_coreMask,Nat.zero_lt_two,two_le_maxNumId,deleteTid_lt⟩

def longCommit : CommitTid := ⟨3,1,7,three_le_coreMask,Nat.zero_lt_one,one_le_maxNumId,longTid_lt⟩

def shortValue : Write := ⟨firstCommit,some [1,2]⟩

def rewrites : List Write := [⟨deleteCommit,none⟩,⟨longCommit,some (List.replicate 20 9)⟩]

theorem snapshots_read_rewritten : (Record.run 2 shortValue rewrites).chain.map Dbtuple.tuple = [1,0] ∧
    ((Record.run 2 shortValue rewrites).stableRead (computeReadOnlyTid 2 8)).2 = some (List.replicate 20 9) ∧
    ((Record.run 2 shortValue rewrites).stableRead (computeReadOnlyTid 2 6)).2 = none := by
  have answers := snapshots_read_last_write 2 shortValue rewrites (by decide) (by decide)
  exact ⟨by decide +kernel,(answers.1 8).trans (by decide +kernel),(answers.1 6).trans (by decide +kernel)⟩

theorem run_writes_chain_rewritten : ChainWrites 2 rewrites [(Dbtuple.first shortValue).erase]
    ((Record.run 2 shortValue rewrites).chain.map Dbtuple.erase) := (run_writes_chain 2 shortValue rewrites (by decide)).1

-- The size of a record has 16 bits.
def wideValue : Write := ⟨longCommit,some (List.replicate 65536 0)⟩

theorem run_spills (v w : Write) (full : ¬ w.size ≤ (Dbtuple.first v).allocSize) :
    Record.run multiplier v [w] = ⟨.allocSpill 1 w,[(Dbtuple.first v).clearLatest],2⟩ := by
  change Record.writeRecordAt multiplier (.first v) w = _
  unfold Record.writeRecordAt Record.first
  simp [full]

theorem stableRead_head (r : Record) (committed : r.head.version < maxTid) (seen : r.head.version ≤ t) : (r.stableRead t).2 = r.head.read := by
  rw [Record.stableRead,if_neg (Nat.ne_of_lt committed),Record.chain,recordAtChain,if_pos seen]

theorem read_overflow (w : Write) (overflow : nodeSize w.size = 0) : (Dbtuple.allocSpill fresh w).read = none := by
  have vacant : (Dbtuple.allocSpill fresh w).oldSize = 0 := by
    rw [Dbtuple.oldSize,Dbtuple.allocSpill,overflow,ite_self]
  rw [Dbtuple.read,if_pos vacant]

theorem wide_value_reads_empty : ((Record.run 2 shortValue [wideValue]).stableRead (computeReadOnlyTid 2 8)).2 = none ∧
    lastAt (computeReadOnlyTid 2 8) [shortValue,wideValue] = wideValue.value := by
  have size : wideValue.size = 65536 := length_replicate
  have seen : wideValue.tid ≤ computeReadOnlyTid 2 8 := by decide +kernel
  constructor
  · rw [run_spills shortValue wideValue (by rw [size]; decide),stableRead_head _ longTid_lt seen]
    exact read_overflow wideValue (by rw [size]; rfl)
  have last := lastAt_append (computeReadOnlyTid 2 8) [shortValue] wideValue
  rw [if_pos seen,Write.stored,size] at last
  exact last

end DbExp.Silo
