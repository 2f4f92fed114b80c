import DbExp.Tapir.Log

namespace DbExp.Tapir.Log
open List

-- The log with its assertions, the check of a PARANOID build included that no committed
-- entry is removed; `none` is a failed one.
section
variable (l : Log)

def findAsserting (opnum : Nat) : Option (Option LogEntry) :=
  match l.find opnum with
  | none => some none
  | some e => if e.viewstamp.opnum = opnum then some (some e) else none

def appendAsserting (vs : Viewstamp) (req : Request) (state : LogEntryState) : Option Log :=
  if vs.opnum = if l.entries.isEmpty then l.start else l.lastOpnum + 1 then
    ((l.append vs req state).findAsserting vs.opnum).map fun _ => l.append vs req state
  else none

def uncommitted (opnum : Nat) : Bool :=
  match l.findAsserting opnum with
  | some (some e) => e.state != .committed
  | _ => false

def removeAfterAsserting (op : Nat) : Option Log :=
  if (range' op (l.lastOpnum + 1 - op)).all l.uncommitted then
    if op > l.lastOpnum then some l
    else if op - l.start < l.entries.length ∧ (l.removeAfter op).lastOpnum = op - 1 then some (l.removeAfter op)
    else none
  else none

end

def appendAllAsserting (l : Log) : List LogEntry → Option Log
  | [] => some l
  | e :: rest => (l.appendAsserting ⟨e.viewstamp.view,e.viewstamp.opnum⟩ e.request .prepared).bind (·.appendAllAsserting rest)

def installAsserting (l : Log) : List LogEntry → Option Log
  | [] => some l
  | e :: rest => (l.findAsserting e.viewstamp.opnum).bind fun found =>
    match found with
    | none => l.appendAllAsserting (e :: rest)
    | some old =>
      if e.viewstamp.view ≠ old.viewstamp.view then
        (l.removeAfterAsserting e.viewstamp.opnum).bind (·.appendAllAsserting (e :: rest))
      else l.installAsserting rest

-- What HandleDoViewChange and HandleStartView do with the entries they were sent.
def receive (l : Log) (entries : List LogEntry) (lastop : Nat) : Option Log :=
  (l.removeAfterAsserting (lastop + 1)).bind (·.installAsserting entries)

abbrev SameRequests (l : Log) (es : List LogEntry) : Prop :=
  ∀ new ∈ es, ∀ old ∈ l.find new.viewstamp.opnum, old.viewstamp.view = new.viewstamp.view → old.request = new.request

-- No entry received for the place of `e` or an earlier one is of another view than the entry there.
abbrev Undisputed (l : Log) (es : List LogEntry) (e : LogEntry) : Prop :=
  ∀ new ∈ es, new.viewstamp.opnum ≤ e.viewstamp.opnum → ∀ old ∈ l.find new.viewstamp.opnum, old.viewstamp.view = new.viewstamp.view

section
variable {l : Log} (wf : Wf l)
include wf

theorem findAsserting_eq (opnum : Nat) : l.findAsserting opnum = some (l.find opnum) := by
  unfold findAsserting
  split
  next missing => rw [missing]
  next e found =>
    rw [if_pos,found]
    cases opnum with
    | zero => simp [find_zero wf] at found
    | succ k => simpa [Nat.add_comm] using wf.places k e (find_eq wf k ▸ found)

theorem appendAsserting_eq (next : vs.opnum = l.items.length + 1) (req : Request) (state : LogEntryState) :
    l.appendAsserting vs req state = some (l.append vs req state) := by
  unfold appendAsserting
  rw [findAsserting_eq (append_wf wf next),if_pos,Option.map_some]
  rw [lastOpnum_eq wf,wf.start,next]
  split
  next bare => rw [items_length,isEmpty_iff.mp bare,length_nil]
  · rfl

theorem removeAfterAsserting_eq (positive : 0 < op) (kept : ∀ e ∈ l.entries, op ≤ e.viewstamp.opnum → e.state ≠ .committed) :
    l.removeAfterAsserting op = some (l.removeAfter op) := by
  have length := lastOpnum_eq wf
  have cut := lastOpnum_eq (removeAfter_wf wf positive)
  rw [removeAfter_items wf positive,length_take] at cut
  rw [items_length] at length cut
  unfold removeAfterAsserting
  rw [if_pos]
  · split
    next far => rw [removeAfter,if_pos far]
    next near => rw [if_pos ⟨by rw [wf.start]; omega,by omega⟩]
  rw [all_eq_true]
  intro i listed
  rw [mem_range'_1] at listed
  obtain ⟨k,rfl⟩ : ∃ k, i = k + 1 := ⟨i - 1,by omega⟩
  have there := getElem?_eq_getElem (l := l.entries) (i := k) (by omega)
  have place := wf.places k _ there
  unfold uncommitted
  rw [findAsserting_eq wf,find_eq wf,there]
  simpa using kept _ (mem_of_getElem? there) (by omega)

theorem appendAllAsserting_eq (contiguous : Contiguous l.items.length es) : l.appendAllAsserting es = some (l.appendAll es) := by
  induction es generalizing l with
  | nil => rfl
  | cons e rest ih =>
    have next := contiguous.head
    rw [appendAllAsserting,appendAsserting_eq wf next]
    exact ih (append_wf wf next) (by simpa using contiguous.tail)

theorem installAsserting_eq (contiguous : Contiguous base es) (reach : base ≤ l.items.length)
    (kept : ∀ e ∈ l.entries, e.state = .committed → Undisputed l es e) : l.installAsserting es = some (l.install es) := by
  induction es generalizing base with
  | nil => rfl
  | cons e rest ih =>
    have place := contiguous.head
    unfold installAsserting install
    rw [findAsserting_eq wf,Option.bind_some]
    cases found : l.find e.viewstamp.opnum with
    | none =>
      rw [place,find_eq wf,getElem?_eq_none_iff,← items_length] at found
      exact appendAllAsserting_eq wf (Nat.le_antisymm reach found ▸ contiguous)
    | some old =>
      dsimp only
      split
      next differs =>
        have length : (l.removeAfter (base+1)).items.length = base := by
          rw [removeAfter_items wf (Nat.succ_pos base),length_take]
          omega
        rw [place,removeAfterAsserting_eq wf (Nat.succ_pos base)]
        · exact appendAllAsserting_eq (removeAfter_wf wf (Nat.succ_pos base)) (length.symm ▸ contiguous)
        intro x mem late committed
        exact differs (kept x mem committed e mem_cons_self (place ▸ late) old found).symm
      · rw [place,find_eq wf] at found
        refine ih contiguous.tail ?_ fun x mem committed new there => kept x mem committed new (mem_cons_of_mem _ there)
        rw [items_length]
        exact (List.getElem?_eq_some_iff.mp found).1

theorem find_of_removeAfter (positive : 0 < op) (found : e ∈ (l.removeAfter op).find opnum) : e ∈ l.find opnum := by
  cases opnum with
  | zero => simp [find_zero (removeAfter_wf wf positive)] at found
  | succ k =>
    rw [find_eq (removeAfter_wf wf positive),(removeAfter_entries wf positive).1,getElem?_take] at found
    rw [find_eq wf]
    split at found
    · exact found
    · cases found

theorem find_of_items {e : LogEntry} (there : l.items[k]? = some e.item) (place : e.viewstamp.opnum = k + 1) :
    ∃ state, l.find e.viewstamp.opnum = some {e with state := state} := by
  rw [items,getElem?_map,Option.map_eq_some_iff] at there
  obtain ⟨⟨⟨_,_⟩,state,_⟩,found,same⟩ := there
  have here := wf.places k _ found
  rcases e with ⟨⟨_,_⟩,_,_⟩
  cases same
  exact ⟨state,by simp_all [find_eq wf]⟩

end

theorem receive_installs (wf : Wf l) (contiguous : Contiguous base es) (reach : base ≤ l.lastOpnum) (alike : SameRequests l es)
    (kept : ∀ e ∈ l.entries, e.state = .committed → e.viewstamp.opnum ≤ base + es.length ∧ Undisputed l es e) :
    ∃ l', l.receive es (base + es.length) = some l' ∧ l'.lastOpnum = base + es.length ∧
      (∀ e ∈ es, ∃ state, l'.find e.viewstamp.opnum = some {e with state := state}) ∧
      l'.entries.take base = l.entries.take base := by
  have positive := Nat.succ_pos (base + es.length)
  rw [lastOpnum_eq wf] at reach
  have cut := (removeAfter_entries wf positive).1
  have first := removeAfterAsserting_eq wf positive fun e mem late committed => absurd (kept e mem committed).1 (by omega)
  have second := installAsserting_eq (removeAfter_wf wf positive) contiguous (by rw [removeAfter_items wf positive,length_take]; omega) (by
    intro e mem committed new there early old found
    rw [cut] at mem
    exact (kept e (mem_of_mem_take mem) committed).2 new there early old (find_of_removeAfter wf positive found))
  obtain ⟨good,length⟩ := replace_length wf contiguous reach
  have items := replace_items wf contiguous reach (by
    intro i a b there mine views
    rw [Log.items,getElem?_map,Option.map_eq_some_iff] at there
    rw [getElem?_map,Option.map_eq_some_iff] at mine
    obtain ⟨x,there,rfl⟩ := there
    obtain ⟨y,mine,rfl⟩ := mine
    exact Prod.ext views (alike y (mem_of_getElem? mine) x (by rw [contiguous i y mine,find_eq wf]; exact there) views))
  obtain ⟨_,n,_,inside,whole,_⟩ := replace_split wf contiguous reach
  refine ⟨_,by rw [receive,first]; exact second,by rw [lastOpnum_eq good,length],?_,?_⟩
  · intro e mem
    obtain ⟨i,mine⟩ := mem_iff_getElem?.mp mem
    refine find_of_items good (k := base+i) ?_ (contiguous i e mine)
    rw [items,getElem?_append_right] <;> rw [length_take,Nat.min_eq_left reach]
    · rw [Nat.add_sub_cancel_left,getElem?_map,mine]
      rfl
    · exact Nat.le_add_right base i
  · rw [whole,take_append_of_le_length (by rw [length_take]; omega),take_take,Nat.min_eq_left (Nat.le_add_right base n)]

def older (state : LogEntryState) : Log := { entries := [⟨⟨0,1⟩,.committed,⟨"a",1,1⟩⟩,⟨⟨0,2⟩,state,⟨"b",1,2⟩⟩] }

def newer : List LogEntry := [⟨⟨1,2⟩,.committed,⟨"c",2,1⟩⟩]

theorem older_wf (state : LogEntryState) : Wf (older state) := append_wf (append_wf .empty rfl) rfl

theorem newer_contiguous : Contiguous 1 newer := by
  intro i e mem
  cases i with
  | zero =>
    cases mem
    rfl
  | succ i => cases mem

theorem receive_installs_newer : ∃ l', (older .prepared).receive newer 2 = some l' ∧ l'.lastOpnum = 2 := by
  obtain ⟨l',done,last,_⟩ := receive_installs (older_wf .prepared) newer_contiguous (by decide) (by decide) (by decide)
  exact ⟨l',done,last⟩

theorem receive_removes_committed : Wf (older .committed) ∧ Contiguous 1 newer ∧ 1 ≤ (older .committed).lastOpnum ∧
    SameRequests (older .committed) newer ∧ (older .committed).receive newer 2 = none :=
  ⟨older_wf _,newer_contiguous,by decide,by decide,by decide⟩

end DbExp.Tapir.Log
