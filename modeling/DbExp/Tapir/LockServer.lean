import DbExp.Tapir.IrReplica

namespace DbExp.Tapir.Lock
open Ir (Opid RecordEntry Record AppReplica)

-- lockserver/locks-proto.proto
structure Request where
  clientid : Nat
  key : String
  type : Bool
  deriving DecidableEq, Repr

structure Reply where
  key : String
  status : Int
  deriving DecidableEq, Repr

-- What Sync collects of a key. The sets are unordered ones: in which order they are
-- walked is open, beside what a message looks like on the wire.
structure KeyLockInfo where
  locked : List Nat := []
  unlocked : List Nat := []

structure Arrangement where
  of : String → KeyLockInfo → KeyLockInfo
  locked : ∀ key info, (of key info).locked.Perm info.locked
  unlocked : ∀ key info, (of key info).unlocked.Perm info.unlocked

structure Wire where
  request : Codec Request ⟨0,"",false⟩
  reply : Codec Reply ⟨"",0⟩
  order : Arrangement

abbrev Locks := OrdMap String Nat

variable (wire : Wire)

def execInconsistentUpcall (locks : Locks) (str1 : String) : Locks :=
  let request := wire.request.parseFromString str1
  if request.type then locks
  else if locks.find request.key = some request.clientid then locks.erase request.key
  else locks

def execConsensusUpcall (locks : Locks) (str1 : String) : Locks × String :=
  let request := wire.request.parseFromString str1
  let reply (status : Int) := wire.reply.serializeToString ⟨request.key,status⟩
  if request.type then
    match locks.find request.key with
    | none => (locks.insert request.key request.clientid,reply 0)
    | some holder => (locks,reply (if holder = request.clientid then 0 else -1))
  else
    match locks.find request.key with
    | none => (locks,reply (-2))
    | some holder => if holder = request.clientid then (locks.erase request.key,reply 0) else (locks,reply (-2))

def insertNew (x : Nat) (xs : List Nat) : List Nat := if x ∈ xs then xs else xs ++ [x]

def syncEntry (info : OrdMap String KeyLockInfo) (p : Opid × RecordEntry) : OrdMap String KeyLockInfo :=
  let request := wire.request.parseFromString p.2.request.op
  let reply := wire.reply.parseFromString p.2.result
  let old := (info.find request.key).getD {}
  info.insert request.key
    (if reply.status ≠ 0 then old
    else if request.type then {old with locked := insertNew request.clientid old.locked}
    else {old with unlocked := insertNew request.clientid old.unlocked})

-- std::set_difference; the ranges it merges here need not be sorted.
def setDifference : List Nat → List Nat → List Nat
  | [],_ => []
  | x :: xs,[] => x :: xs
  | x :: xs,y :: ys =>
    if x < y then x :: setDifference xs (y :: ys)
    else if y < x then setDifference (x :: xs) ys
    else setDifference xs ys
  termination_by xs ys => xs.length + ys.length

def Arrangement.diff (order : Arrangement) (p : String × KeyLockInfo) : List Nat :=
  setDifference (order.of p.1 p.2).locked (order.of p.1 p.2).unlocked

def syncKey (order : Arrangement) (locks : Locks) (p : String × KeyLockInfo) : Locks :=
  match order.diff p with
  | [clientId] => locks.insert p.1 clientId
  | _ => locks

def syncInfo (record : Record) : OrdMap String KeyLockInfo := record.entries.foldl (syncEntry wire) .empty

-- Sync clears the table first.
def sync (_ : Locks) (record : Record) : Locks := (syncInfo wire record).entries.foldl (syncKey wire.order) .empty

-- A majority lock in d is granted unless the key is held by now. The groups are
-- never empty.
def mergeMajority (majority : OrdMap Opid String) (acc : Locks × OrdMap Opid String) (p : Opid × List RecordEntry) :
    Locks × OrdMap Opid String :=
  match p.2 with
  | [] => acc
  | entry :: _ =>
    let request := wire.request.parseFromString entry.request.op
    let result := (majority.find p.1).getD ""
    let reply := wire.reply.parseFromString result
    if reply.status = 0 then
      if (acc.1.find reply.key).isNone then (acc.1.insert reply.key request.clientid,acc.2.insert p.1 result)
      else (acc.1,acc.2.insert p.1 (wire.reply.serializeToString {reply with status := -1}))
    else (acc.1,acc.2.insert p.1 result)

def rejectLock (results : OrdMap Opid String) (p : Opid × List RecordEntry) : OrdMap Opid String :=
  match p.2 with
  | [] => results
  | entry :: _ =>
    results.insert p.1 (wire.reply.serializeToString ⟨(wire.request.parseFromString entry.request.op).key,-1⟩)

def merge (locks : Locks) (d u : OrdMap Opid (List RecordEntry)) (majority : OrdMap Opid String) : Locks × OrdMap Opid String :=
  let granted := d.entries.foldl (mergeMajority wire majority) (locks,.empty)
  (granted.1,u.entries.foldl (rejectLock wire) granted.2)

-- UnloggedUpcall leaves the reply empty.
def lockServer : AppReplica Locks where
  execInconsistentUpcall := execInconsistentUpcall wire
  execConsensusUpcall := execConsensusUpcall wire
  unloggedUpcall := fun locks _ => (locks,"")
  sync := sync wire
  merge := merge wire

def Request.text (r : Request) : String :=
  .ofList ((if r.type then 'L' else 'U') :: (List.replicate r.clientid 'i' ++ ':' :: r.key.toList))

def Request.ofText (s : String) : Request :=
  match s.toList with
  | [] => ⟨0,"",false⟩
  | t :: rest => ⟨(rest.takeWhile (· = 'i')).length,.ofList ((rest.dropWhile (· = 'i')).drop 1),t = 'L'⟩

def Reply.text (r : Reply) : String :=
  .ofList (List.replicate r.status.toNat '+' ++ List.replicate (-r.status).toNat '-' ++ ':' :: r.key.toList)

def Reply.ofText (s : String) : Reply :=
  let rest := s.toList.dropWhile (· = '+')
  ⟨.ofList ((rest.dropWhile (· = '-')).drop 1),
    ((s.toList.takeWhile (· = '+')).length : Int) - ((rest.takeWhile (· = '-')).length : Int)⟩

theorem takeWhile_replicate (k : Nat) (c : Char) (rest : List Char) (stops : rest.head? ≠ some c) :
    (List.replicate k c ++ rest).takeWhile (· = c) = List.replicate k c ∧
    (List.replicate k c ++ rest).dropWhile (· = c) = rest := by
  induction k with
  | zero =>
    cases rest with
    | nil => simp
    | cons d more => simp_all
  | succ k ih => simpa [List.replicate_succ] using ih

def Arrangement.filled : Arrangement := ⟨fun _ info => info,fun _ _ => .refl _,fun _ _ => .refl _⟩

def plainText : Wire where
  request := {
    serializeToString := Request.text
    parseFromString := Request.ofText
    parse_serialize := by
      rintro ⟨clientid,key,type⟩
      obtain ⟨taken,dropped⟩ := takeWhile_replicate clientid 'i' (':' :: key.toList) (by simp)
      simp only [Request.ofText,Request.text,String.toList_ofList,taken,dropped]
      cases type <;> simp
    parse_nothing := by decide }
  reply := {
    serializeToString := Reply.text
    parseFromString := Reply.ofText
    parse_serialize := by
      rintro ⟨key,status⟩
      obtain ⟨minus,after⟩ := takeWhile_replicate (-status).toNat '-' (':' :: key.toList) (by simp)
      obtain ⟨plus,between⟩ := takeWhile_replicate status.toNat '+'
        (List.replicate (-status).toNat '-' ++ ':' :: key.toList) (by cases (-status).toNat <;> simp [List.replicate_succ])
      simp only [Reply.ofText,Reply.text,String.toList_ofList,List.append_assoc,plus,between,minus,after]
      simp
    parse_nothing := by decide }
  order := .filled

end DbExp.Tapir.Lock
