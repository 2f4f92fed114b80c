import DbExp.Tapir.Quorum

namespace DbExp.Tapir.Ir

-- replication/ir/record.cc
structure Opid where
  clientid : Nat
  clientreqid : Nat
  deriving Repr

instance : LinearOrder Opid :=
  LinearOrder.lift' (fun o => toLex (o.clientid,o.clientreqid)) (by
    rintro ⟨a,b⟩ ⟨c,d⟩ same
    simpa using same)

inductive RecordEntryState where
  | tentative
  | finalized
  deriving DecidableEq, Repr

inductive RecordEntryType where
  | inconsistent
  | consensus
  deriving DecidableEq, Repr

structure RecordEntry where
  view : Nat
  opid : Opid
  state : RecordEntryState
  type : RecordEntryType
  request : Request
  result : String
  deriving DecidableEq, Repr

structure Record where
  map : OrdMap Opid RecordEntry
  keyed : ∀ o e, map.find o = some e → e.opid = o

namespace Record

instance : DecidableEq Record := fun a b =>
  decidable_of_iff (a.map = b.map) ⟨fun same => by cases a; cases b; cases same; rfl,fun same => by rw [same]⟩

def empty : Record := ⟨.empty,fun o e found => by cases found⟩

section
variable (r : Record)

def find (op : Opid) : Option RecordEntry := r.map.find op

def entries : List (Opid × RecordEntry) := r.map.entries

def add (entry : RecordEntry) : Record where
  map := r.map.insert entry.opid entry
  keyed := by
    intro o e found
    rw [OrdMap.find_insert] at found
    split at found
    · rename_i same
      cases found
      exact same
    · exact r.keyed o e found

def setStatus (op : Opid) (state : RecordEntryState) : Record :=
  match r.find op with
  | none => r
  | some entry => r.add {entry with state := state}

def setResult (op : Opid) (result : String) : Record :=
  match r.find op with
  | none => r
  | some entry => r.add {entry with result := result}

@[simp] theorem find_empty (o : Opid) : empty.find o = none := rfl

@[simp] theorem find_add (entry : RecordEntry) (o : Opid) :
    (r.add entry).find o = if entry.opid = o then some entry else r.find o := OrdMap.find_insert ..

end

theorem mem_entries {r : Record} : (o,e) ∈ r.entries ↔ r.find o = some e := OrdMap.mem_entries

section
variable (r : Record)

theorem find_change (op o : Opid) {change : RecordEntry → RecordEntry} (keyed : ∀ e, (change e).opid = e.opid) :
    (match r.find op with | none => r | some entry => r.add (change entry)).find o =
      if o = op then (r.find o).map change else r.find o := by
  split
  next none =>
    split
    · rename_i same; subst same; rw [none]; rfl
    · rfl
  next entry got =>
    have key := (keyed entry).trans (r.keyed op entry got)
    rw [find_add]
    by_cases same : o = op
    · subst same; simp [key,got]
    · simp [same,key,Ne.symm same]

theorem find_setStatus (op : Opid) (state : RecordEntryState) (o : Opid) :
    (r.setStatus op state).find o = if o = op then (r.find o).map (fun e => {e with state := state}) else r.find o :=
  find_change r op o fun _ => rfl

theorem find_setResult (op : Opid) (result : String) (o : Opid) :
    (r.setResult op result).find o = if o = op then (r.find o).map (fun e => {e with result := result}) else r.find o :=
  find_change r op o fun _ => rfl

-- Neither state nor result says what was asked.
def asked (o : Opid) : Option (RecordEntryType × Request) := (r.find o).map fun e => (e.type,e.request)

theorem asked_setStatus (op : Opid) (state : RecordEntryState) : (r.setStatus op state).asked = r.asked := by
  funext o
  rw [asked,find_setStatus]
  split
  · rw [Option.map_map]; rfl
  · rfl

theorem asked_setResult (op : Opid) (result : String) : (r.setResult op result).asked = r.asked := by
  funext o
  rw [asked,find_setResult]
  split
  · rw [Option.map_map]; rfl
  · rfl

end

end Record
end DbExp.Tapir.Ir
