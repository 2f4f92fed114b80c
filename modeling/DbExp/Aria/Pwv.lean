import DbExp.Foundation.Machine
import DbExp.Foundation.Serial

namespace DbExp.Aria.Pwv
open Function
open Serial

-- The columns that NewOrder computes with. The amounts are Int, and a warehouse is numbered
-- from 1, so that its partition is one less.
structure StockRow where
  quantity : Int
  ytd : Int
  orderCnt : Int
  remoteCnt : Int
  deriving DecidableEq, Repr

structure DistrictRow where
  tax : Int
  ytd : Int
  nextOId : Int
  deriving DecidableEq, Repr

structure WarehouseRow where
  tax : Int
  ytd : Int
  deriving DecidableEq, Repr

structure Rows where
  warehouse : Nat → WarehouseRow
  district : Nat × Nat → DistrictRow
  stock : Nat × Int → StockRow

structure OrderLine where
  iId : Int
  supplyWId : Nat
  quantity : Int
  deriving DecidableEq, Repr

structure Query where
  partitionId : Nat
  dId : Nat
  lines : List OrderLine
  deriving DecidableEq, Repr

def Query.wId (q : Query) : Nat := q.partitionId + 1

def OrderLine.key (l : OrderLine) : Nat × Int := (l.supplyWId,l.iId)

def computeStock (wId : Nat) (l : OrderLine) (v : StockRow) : StockRow where
  quantity := if v.quantity ≥ l.quantity + 10 then v.quantity - l.quantity else v.quantity - l.quantity + 91
  ytd := v.ytd + l.quantity
  orderCnt := v.orderCnt + 1
  remoteCnt := if l.supplyWId ≠ wId then v.remoteCnt + 1 else v.remoteCnt

def Query.valid (q : Query) : Bool := q.lines.all fun l => l.iId != 0

-- NewOrder::execute of the tpcc benchmark, with the rows that its commit writes. An unused
-- item id ends it before anything is written.
def newOrder (q : Query) (rows : Rows) : Rows :=
  if q.valid then
    let district := rows.district (q.wId,q.dId)
    { rows with
      district := update rows.district (q.wId,q.dId) { district with nextOId := district.nextOId + 1 }
      stock := install rows.stock (q.lines.map fun l => (l.key,computeStock q.wId l (rows.stock l.key))) }
  else rows

def serial (batch : List Query) (rows : Rows) : Rows := batch.foldl (fun rows q => newOrder q rows) rows

-- The values that the pieces of one transaction share. They are what the storage held
-- before, until a piece stores into them.
structure Storage where
  districtValue : DistrictRow
  stockValues : Nat → StockRow

structure Config where
  workers : Nat
  batch : List Query
  -- the bytes of a district row read as a warehouse row
  reinterpret : DistrictRow → WarehouseRow
  rows : Rows
  storages : Nat → Storage

structure State where
  rows : Rows
  storages : Nat → Storage
  commitRvp : Nat → Int
  -- the transaction and the piece at which a worker is
  position : Nat → Nat × Nat

inductive Act where
  | work (worker : Nat)
  deriving DecidableEq, Repr

variable (cfg : Config)

def initial : State where
  rows := cfg.rows
  storages := cfg.storages
  commitRvp := fun i => ((cfg.batch[i]?).map fun q => (q.lines.length : Int)).getD 0
  position := fun _ => (0,0)

def piecePartitionId (q : Query) (k : Nat) : Nat :=
  match q.lines[k]? with
  | some l => l.supplyWId - 1
  | none => q.partitionId

def next (q : Query) (i k : Nat) : Nat × Nat := if k ≤ q.lines.length then (i,k + 1) else (i + 1,0)

def setStock (st : Storage) (k : Nat) (v : StockRow) : Storage := { st with stockValues := update st.stockValues k v }

section
variable (s : State)

def stockPiece (i : Nat) (q : Query) (k : Nat) (l : OrderLine) : State :=
  if l.iId = 0 then { s with commitRvp := update s.commitRvp i (s.commitRvp i - q.lines.length - 1) }
  else { s with
    storages := update s.storages i (setStock (s.storages i) k (computeStock q.wId l (s.rows.stock l.key)))
    commitRvp := update s.commitRvp i (s.commitRvp i - 1) }

def warehousePiece (i : Nat) : State :=
  let storage := s.storages i
  let district := { storage.districtValue with nextOId := storage.districtValue.nextOId + 1 }
  { s with storages := update s.storages i { storage with districtValue := district } }

-- PwvNewOrderOrderStatement::execute looks up the warehouse table to write the district, and
-- writes all stock rows from the storage.
def orderPiece (i : Nat) (q : Query) : State :=
  let rows := s.rows
  { s with rows := { rows with
      warehouse := update rows.warehouse q.wId (cfg.reinterpret (s.storages i).districtValue)
      stock := install rows.stock (q.lines.zipIdx.map fun l => (l.1.key,(s.storages i).stockValues l.2)) } }

def move (worker : Nat) (place : Nat × Nat) : State := { s with position := update s.position worker place }

-- One round of the loops of run_transactions and commit. The last two pieces wait for the
-- stock pieces, and are left out when one of them gave up.
def work (worker : Nat) : Option State :=
  let (i,k) := s.position worker
  match cfg.batch[i]? with
  | none => none
  | some q =>
    if piecePartitionId q k % cfg.workers ≠ worker then some (move s worker (next q i k))
    else
      match q.lines[k]? with
      | some l => some (move (stockPiece s i q k l) worker (next q i k))
      | none =>
        if s.commitRvp i < 0 then some (move s worker (i + 1,0))
        else if s.commitRvp i = 0 then
          some (move (if k = q.lines.length then warehousePiece s i else orderPiece cfg s i q) worker (next q i k))
        else none

def step : Act → Option State
  | .work worker => if worker < cfg.workers then work cfg s worker else none

def machine : Machine State Act := ⟨initial cfg,step cfg⟩

def Completed : Prop := ∀ worker, worker < cfg.workers → (s.position worker).1 = cfg.batch.length

end

end DbExp.Aria.Pwv
