import Mathlib.Tactic

namespace DbExp.Tapir
open List

-- replication/common: viewstamps, requests and the replicated log. The Makefile
-- builds with -DNASSERT, so ASSERT expands to nothing here and below; Panic stays.
structure Viewstamp where
  view : Nat
  opnum : Nat
  deriving DecidableEq, Repr

structure Request where
  op : String
  clientid : Nat
  clientreqid : Nat
  deriving DecidableEq, Repr, Inhabited

inductive LogEntryState where
  | committed
  | prepared
  | speculative
  | fastprepared
  deriving DecidableEq, Repr

structure LogEntry where
  viewstamp : Viewstamp
  state : LogEntryState
  request : Request
  deriving DecidableEq, Repr

-- `useHash` is false in every log of this model, so entries carry no hash.
structure Log where
  start : Nat := 1
  entries : List LogEntry := []
  deriving DecidableEq, Repr

theorem mapM_some {l : List α} {ys : List β} {f : α → Option β} (done : l.mapM f = some ys) : l.map f = ys.map some := by
  induction l generalizing ys with
  | nil => cases done; rfl
  | cons x rest ih =>
    rw [mapM_cons] at done
    obtain ⟨y,first,tail⟩ := Option.bind_eq_some_iff.mp done
    obtain ⟨zs,more,same⟩ := Option.bind_eq_some_iff.mp tail
    cases same
    rw [map_cons,map_cons,first,ih more]

namespace Log

section
variable (l : Log)

def append (vs : Viewstamp) (req : Request) (state : LogEntryState) : Log :=
  {l with entries := l.entries ++ [⟨vs,state,req⟩]}

def find (opnum : Nat) : Option LogEntry :=
  if l.entries.isEmpty then none
  else if opnum < l.start then none
  else if opnum - l.start > l.entries.length - 1 then none
  else l.entries[opnum - l.start]?

def setStatus (op : Nat) (state : LogEntryState) : Log :=
  match l.find op with
  | none => l
  | some _ => {l with entries := l.entries.modify (op - l.start) (fun e => {e with state := state})}

def lastViewstamp : Viewstamp :=
  match l.entries.getLast? with
  | none => ⟨0,l.start - 1⟩
  | some e => e.viewstamp

def lastOpnum : Nat :=
  match l.entries.getLast? with
  | none => l.start - 1
  | some e => e.viewstamp.opnum

-- std::vector::resize: shrinking drops the tail, growing default-constructs.
def resize (entries : List LogEntry) (size : Nat) : List LogEntry :=
  entries.take size ++ List.replicate (size - entries.length) ⟨⟨0,0⟩,.committed,⟨"",0,0⟩⟩

def removeAfter (op : Nat) : Log :=
  if op > l.lastOpnum then l else {l with entries := resize l.entries (op - l.start)}

def dump (start : Nat) : List LogEntry :=
  (List.range' (max start l.start) (l.lastOpnum + 1 - max start l.start)).filterMap l.find

end

def appendAll (l : Log) : List LogEntry → Log
  | [] => l
  | e :: rest => appendAll (l.append ⟨e.viewstamp.view,e.viewstamp.opnum⟩ e.request .prepared) rest

-- Walk to the first divergence (an opnum this log lacks, or holds under another
-- view), cut there and take the rest of the new entries.
def install (l : Log) : List LogEntry → Log
  | [] => l
  | e :: rest =>
    match l.find e.viewstamp.opnum with
    | none => l.appendAll (e :: rest)
    | some old =>
      if e.viewstamp.view ≠ old.viewstamp.view then (l.removeAfter e.viewstamp.opnum).appendAll (e :: rest)
      else install l rest

end Log

-- What two replicas can compare of an entry: the view it was first logged in and
-- its request. The opnum is its place and the state is private to a replica.
def LogEntry.item (e : LogEntry) : Nat × Request := (e.viewstamp.view,e.request)

def Vr.stamped (e : LogEntry) : Viewstamp × Request := (e.viewstamp,e.request)

def Contiguous (base : Nat) (es : List LogEntry) : Prop :=
  ∀ (i : Nat) e, es[i]? = some e → e.viewstamp.opnum = base + i + 1

namespace Log
open Vr (stamped)

def items (l : Log) : List (Nat × Request) := l.entries.map LogEntry.item

structure Wf (l : Log) : Prop where
  start : l.start = 1
  places : Contiguous 0 l.entries

@[simp] theorem items_length (l : Log) : l.items.length = l.entries.length := by simp [items]

theorem Wf.empty : Wf {} := ⟨rfl,by intro i e mem; simp at mem⟩

theorem find_eq (wf : Wf l) (k : Nat) : l.find (k+1) = l.entries[k]? := by
  have first := wf.start
  unfold find
  split
  · rename_i none; simp_all
  split
  · omega
  split
  next far =>
    symm; simp only [List.getElem?_eq_none_iff]; omega
  · rw [first]; rfl

theorem find_zero (wf : Wf l) : l.find 0 = none := by
  unfold find
  split
  · rfl
  · simp [wf.start]

theorem find_inside (wf : Wf l) (found : e ∈ l.find k) : k ≤ l.items.length := by
  cases k with
  | zero => exact Nat.zero_le _
  | succ k =>
    rw [find_eq wf] at found
    rw [items_length]
    exact (List.getElem?_eq_some_iff.mp found).1

theorem Wf.inside (wf : Wf l) (mem : e ∈ l.entries) : e.viewstamp.opnum ≤ l.items.length := by
  obtain ⟨k,here⟩ := mem_iff_getElem?.mp mem
  have place := wf.places k e here
  have bound := (List.getElem?_eq_some_iff.mp here).1
  rw [items_length]
  omega

theorem lastOpnum_eq (wf : Wf l) : l.lastOpnum = l.items.length := by
  unfold lastOpnum
  split
  next none =>
    simp_all [wf.start]
  rename_i e last
  rw [List.getLast?_eq_getElem?] at last
  have place := wf.places _ _ last
  have bound := (List.getElem?_eq_some_iff.mp last).1
  simp only [items_length]; omega

def lastView (items : List (Nat × Request)) : Nat := (items.getLast?.map Prod.fst).getD 0

theorem lastViewstamp_eq (wf : Wf l) : l.lastViewstamp = ⟨lastView l.items,l.items.length⟩ := by
  have length := lastOpnum_eq wf
  unfold lastOpnum at length
  unfold lastViewstamp lastView
  split
  next none =>
    rw [none] at length
    rw [← length,items,List.getLast?_map,none]
    simp
  next e last =>
    rw [last] at length
    rw [← length,items,List.getLast?_map,last]
    simp [LogEntry.item]

theorem append_wf (wf : Wf l) (next : vs.opnum = l.items.length + 1) : Wf (l.append vs req state) := by
  refine ⟨wf.start,?_⟩
  intro i e mem
  simp only [append] at mem
  rcases Nat.lt_trichotomy i l.entries.length with old | rfl | _
  · rw [List.getElem?_append_left old] at mem
    exact wf.places i e mem
  · rw [List.getElem?_append_right le_rfl] at mem
    simp only [Nat.sub_self,List.getElem?_cons_zero,Option.some.injEq] at mem
    subst mem
    simpa using next
  · have bound := (List.getElem?_eq_some_iff.mp mem).1
    simp at bound; omega

@[simp] theorem append_items (l : Log) (vs : Viewstamp) (req : Request) (state : LogEntryState) :
    (l.append vs req state).items = l.items ++ [(vs.view,req)] := by
  simp [append,items,LogEntry.item]

theorem removeAfter_entries (wf : Wf l) (positive : 0 < op) :
    (l.removeAfter op).entries = l.entries.take (op - 1) ∧ (l.removeAfter op).start = 1 := by
  have length := lastOpnum_eq wf
  rw [items_length] at length
  unfold removeAfter
  split
  next far =>
    exact ⟨by rw [take_of_length_le]; omega,wf.start⟩
  next near =>
    refine ⟨?_,wf.start⟩
    have none : op - 1 - l.entries.length = 0 := by omega
    simp [resize,wf.start,none]

theorem removeAfter_wf (wf : Wf l) (positive : 0 < op) : Wf (l.removeAfter op) := by
  obtain ⟨entries,start⟩ := removeAfter_entries wf positive
  refine ⟨start,?_⟩
  intro i e mem
  rw [entries,List.getElem?_take] at mem
  split at mem
  · exact wf.places i e mem
  · cases mem

theorem removeAfter_items (wf : Wf l) (positive : 0 < op) : (l.removeAfter op).items = l.items.take (op - 1) := by
  rw [items,(removeAfter_entries wf positive).1,map_take,items]

structure Alike (l m : Log) : Prop where
  start : l.start = m.start
  contents : l.entries.map stamped = m.entries.map stamped

theorem Alike.refl (l : Log) : Alike l l := ⟨rfl,rfl⟩

theorem Alike.of_eq (same : l = m) : Alike l m := same ▸ .refl l

theorem Alike.trans (one : Alike l m) (two : Alike m k) : Alike l k :=
  ⟨one.start.trans two.start,one.contents.trans two.contents⟩

section
variable (alike : Alike l m)
include alike

theorem Alike.length : l.entries.length = m.entries.length := by
  simpa using congrArg List.length alike.contents

theorem Alike.entry (k : Nat) : l.entries[k]?.map stamped = m.entries[k]?.map stamped := by
  have same := congrArg (fun contents => contents[k]?) alike.contents
  simpa only [List.getElem?_map] using same

theorem Alike.find (k : Nat) : (l.find k).map stamped = (m.find k).map stamped := by
  have empty : l.entries.isEmpty = m.entries.isEmpty := by
    rw [Bool.eq_iff_iff,isEmpty_iff_length_eq_zero,isEmpty_iff_length_eq_zero,alike.length]
  unfold Log.find
  rw [empty,alike.start,alike.length]
  split
  · rfl
  split
  · rfl
  split
  · rfl
  exact alike.entry _

theorem Alike.request (k : Nat) : (l.find k).map LogEntry.request = (m.find k).map LogEntry.request := by
  have same := congrArg (Option.map Prod.snd) (alike.find k)
  rwa [Option.map_map,Option.map_map] at same

theorem Alike.items : l.items = m.items := by
  have same := congrArg (List.map fun content => (content.1.view,content.2)) alike.contents
  rwa [map_map,map_map] at same

theorem Alike.member (mem : e ∈ l.entries) : ∃ f ∈ m.entries, f.viewstamp = e.viewstamp := by
  have there : stamped e ∈ m.entries.map stamped := alike.contents ▸ mem_map_of_mem mem
  obtain ⟨f,other,same⟩ := mem_map.mp there
  exact ⟨f,other,congrArg Prod.fst same⟩

theorem Alike.wf (wf : m.Wf) : l.Wf := by
  refine ⟨alike.start.trans wf.start,?_⟩
  intro k e here
  have same := alike.entry k
  rw [here,Option.map_some,eq_comm,Option.map_eq_some_iff] at same
  obtain ⟨f,there,equal⟩ := same
  rw [← wf.places k f there]
  exact congrArg (fun content => content.1.opnum) equal.symm

end

theorem setStatus_alike (l : Log) (op : Nat) (state : LogEntryState) : Alike (l.setStatus op state) l := by
  unfold setStatus
  split
  · exact .refl l
  refine ⟨rfl,?_⟩
  apply ext_getElem?
  intro k
  simp only [List.getElem?_map,List.getElem?_modify]
  cases l.entries[k]? with
  | none => simp
  | some e => split <;> simp [stamped]

theorem find_range (wf : Wf l) (b : Nat) :
    (List.range' (b+1) (l.items.length + 1 - (b+1))).mapM l.find = some (l.entries.drop b) := by
  rw [items_length,show l.entries.length + 1 - (b+1) = l.entries.length - b by omega]
  -- induction on how many entries are left from `b`
  generalize left : l.entries.length - b = m
  induction m generalizing b with
  | zero =>
    rw [List.range'_zero,drop_of_length_le (by omega)]; rfl
  | succ m ih =>
    have bound : b < l.entries.length := by omega
    rw [List.range'_succ,mapM_cons,find_eq wf b,List.getElem?_eq_getElem bound,
      ih (b+1) (by omega),drop_eq_getElem_cons bound]
    rfl

theorem dump_eq (wf : Wf l) (k : Nat) : l.dump k = l.entries.drop (k - 1) := by
  have all := congrArg (filterMap id) (mapM_some (find_range wf (k - 1)))
  rw [filterMap_map,filterMap_map] at all
  unfold dump
  rw [lastOpnum_eq wf,wf.start,show max k 1 = k - 1 + 1 by omega]
  simpa using all

end Log

theorem Contiguous.drop (contiguous : Contiguous base es) (n : Nat) : Contiguous (base+n) (es.drop n) := by
  intro i e mem
  rw [getElem?_drop] at mem
  have place := contiguous (n+i) e mem
  omega

theorem Contiguous.tail (contiguous : Contiguous base (e :: es)) : Contiguous (base+1) es := contiguous.drop 1

theorem Contiguous.head (contiguous : Contiguous base (e :: es)) : e.viewstamp.opnum = base + 1 :=
  contiguous 0 e rfl

def LogEntry.prepared (e : LogEntry) : LogEntry := {e with state := .prepared}

namespace Log

theorem dump_contiguous (wf : Wf l) (k : Nat) : Contiguous (k - 1) (l.dump k) := by
  rw [dump_eq wf]
  simpa using wf.places.drop (k - 1)

theorem appendAll_wf (wf : Wf l) (contiguous : Contiguous l.entries.length es) : Wf (l.appendAll es) := by
  induction es generalizing l with
  | nil => exact wf
  | cons e rest ih =>
    exact ih (append_wf wf (by rw [contiguous.head,items_length])) (by simpa [append] using contiguous.tail)

theorem appendAll_entries (l : Log) (es : List LogEntry) : (l.appendAll es).entries = l.entries ++ es.map LogEntry.prepared := by
  induction es generalizing l with
  | nil => simp [appendAll]
  | cons e rest ih => simp [appendAll,ih,append,LogEntry.prepared]

-- Where `n` entries agree in view with the log, the log is cut after their places and takes the rest.
theorem install_split (wf : Wf l) (contiguous : Contiguous base es) (reach : base ≤ l.entries.length)
    (covered : l.entries.length ≤ base + es.length) : Wf (l.install es) ∧ ∃ n, n ≤ es.length ∧ base + n ≤ l.entries.length ∧
      (l.install es).entries = l.entries.take (base+n) ++ (es.drop n).map LogEntry.prepared ∧
      ∀ i a b, i < n → l.entries[base+i]? = some a → es[i]? = some b → a.viewstamp.view = b.viewstamp.view := by
  induction es generalizing base with
  | nil => exact ⟨wf,0,le_rfl,reach,by simpa [install] using covered,by simp⟩
  | cons e rest ih =>
    unfold install
    rw [contiguous.head,find_eq wf]
    cases old : l.entries[base]? with
    | none =>
      have stop : base = l.entries.length := Nat.le_antisymm reach (getElem?_eq_none_iff.mp old)
      exact ⟨appendAll_wf wf (stop ▸ contiguous),0,Nat.zero_le _,reach,by simp [appendAll_entries,stop],by simp⟩
    | some prior =>
      have bound := (List.getElem?_eq_some_iff.mp old).1
      dsimp only
      split
      · have cut := (removeAfter_entries wf (Nat.succ_pos base)).1
        refine ⟨appendAll_wf (removeAfter_wf wf (Nat.succ_pos base)) ?_,0,Nat.zero_le _,reach,?_,by simp⟩
        · rw [cut,length_take,Nat.succ_sub_one,Nat.min_eq_left reach]
          exact contiguous
        · rw [appendAll_entries,cut]
          rfl
      next agree =>
        rw [length_cons] at covered
        obtain ⟨good,n,short,inside,whole,views⟩ := ih contiguous.tail bound (by omega)
        refine ⟨good,n+1,Nat.succ_le_succ short,by omega,by rw [whole,Nat.add_right_comm]; rfl,?_⟩
        intro i a b low left right
        cases i with
        | zero =>
          cases old.symm.trans left
          cases right
          exact (not_not.mp agree).symm
        | succ i => exact views i a b (Nat.lt_of_succ_lt_succ low) (by rwa [Nat.add_right_comm]) right

section
variable (wf : Wf l) (contiguous : Contiguous base es) (reach : base ≤ l.items.length)
include wf contiguous reach

-- HandleDoViewChange and HandleStartView first cut the log behind the last new entry.
theorem replace_split : Wf ((l.removeAfter (base + es.length + 1)).install es) ∧ ∃ n, n ≤ es.length ∧ base + n ≤ l.entries.length ∧
    ((l.removeAfter (base + es.length + 1)).install es).entries = l.entries.take (base+n) ++ (es.drop n).map LogEntry.prepared ∧
    ∀ i a b, i < n → l.entries[base+i]? = some a → es[i]? = some b → a.viewstamp.view = b.viewstamp.view := by
  have cut := (removeAfter_entries wf (Nat.succ_pos (base + es.length))).1
  have good := removeAfter_wf wf (Nat.succ_pos (base + es.length))
  rw [Nat.succ_sub_one] at cut
  rw [items_length] at reach
  generalize l.removeAfter (base + es.length + 1) = t at *
  have length : t.entries.length = min (base + es.length) l.entries.length := by rw [cut,length_take]
  obtain ⟨done,n,short,inside,whole,views⟩ := install_split good contiguous (by omega) (by omega)
  refine ⟨done,n,short,by omega,?_,?_⟩
  · rw [whole,cut,take_take,Nat.min_eq_left (by omega)]
  · intro i a b low left right
    exact views i a b low (by rw [cut,getElem?_take,if_pos (by omega)]; exact left) right

theorem replace_length : Wf ((l.removeAfter (base + es.length + 1)).install es) ∧
    ((l.removeAfter (base + es.length + 1)).install es).items.length = base + es.length := by
  obtain ⟨good,n,short,inside,whole,_⟩ := replace_split wf contiguous reach
  refine ⟨good,?_⟩
  rw [items_length,whole,length_append,length_take,length_map,length_drop]
  omega

-- The old entry stays where the views agree, so the result is the new log only when a view
-- at a place determines the request there.
theorem replace_items (same : ∀ (i : Nat) a b, l.items[base+i]? = some a → (es.map LogEntry.item)[i]? = some b → a.1 = b.1 → a = b) :
    ((l.removeAfter (base + es.length + 1)).install es).items = l.items.take base ++ es.map LogEntry.item := by
  obtain ⟨_,n,short,inside,whole,views⟩ := replace_split wf contiguous reach
  have middle : (l.items.drop base).take n = (es.map LogEntry.item).take n := by
    apply ext_getElem?
    intro i
    rw [getElem?_take,getElem?_take]
    split
    next low =>
      have left := getElem?_eq_getElem (l := l.entries) (i := base+i) (by omega)
      have right := getElem?_eq_getElem (l := es) (i := i) (by omega)
      rw [getElem?_drop,items,getElem?_map,getElem?_map,left,right]
      exact congrArg some (same i _ _ (by rw [items,getElem?_map,left]; rfl) (by rw [getElem?_map,right]; rfl) (views i _ _ low left right))
    · rfl
  have rest : (es.drop n).map (LogEntry.item ∘ LogEntry.prepared) = (es.map LogEntry.item).drop n := map_drop
  rw [items,whole,map_append,map_take,map_map,rest,← items,take_add,middle,append_assoc,take_append_drop]

end

end Log
end DbExp.Tapir
