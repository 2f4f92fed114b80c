import DbExp.Tapir.VrSingleView

namespace DbExp.Tapir.Vr
open List

variable {env : Env σ} {i : Fin env.config.n} {r : Replica env.config.n σ}

-- What HandleStateTransfer's assertions on opnums ask for: lastOp counts the log, and the
-- entries are consecutive and start no later than right behind it.
structure Orderly (r : Replica n σ) (base : Nat) (entries : List LogEntry) : Prop where
  wf : r.log.Wf
  lastOp : r.lastOp = r.log.items.length
  committed : r.lastCommitted ≤ r.lastOp
  places : Contiguous base entries
  near : base ≤ r.lastOp

section
variable (r : Replica n σ) (entries : List LogEntry) (k : Nat)

def CutAt : Prop := ∃ e ∈ entries, e.viewstamp.opnum ≤ k ∧ Conflicts r e

-- The log keeps what is before the first entry that it has under another view; from there
-- on, and past its end, it gets the entries.
def Brought (req : Request) : Prop :=
  (∃ e ∈ entries, e.viewstamp.opnum = k ∧ e.request = req ∧ (r.lastOp < k ∨ CutAt r entries k)) ∨
  (r.log.find k).map LogEntry.request = some req ∧ ¬ CutAt r entries k

def ReachedBy : Prop := (∃ e ∈ entries, k ≤ e.viewstamp.opnum + 1) ∨ k ≤ r.lastOp + 1 ∧ ∀ e ∈ entries, ¬ Conflicts r e

end

structure Merged (r : Replica n σ) (entries : List LogEntry) (new : Log) : Prop where
  wf : new.Wf
  reach : r.lastCommitted ≤ new.items.length
  brought : ∀ k req, (new.find k).map LogEntry.request = some req ↔ Brought r entries k req
  ends : ∀ k, k ≤ new.items.length + 1 ↔ ReachedBy r entries k

section
variable {r : Replica n σ} {rest : List LogEntry} {e : LogEntry}

theorem find_request {l : Log} (wf : l.Wf) :
    (l.find k).map LogEntry.request = some req ↔ ∃ p, k = p + 1 ∧ (l.items[p]?).map Prod.snd = some req := by
  cases k with
  | zero => simp [Log.find_zero wf]
  | succ k =>
    rw [Log.find_eq wf]
    simp [Log.items,LogEntry.item]

theorem above_base (places : Contiguous base entries) (mem : x ∈ entries) : base < x.viewstamp.opnum := by
  obtain ⟨k,here⟩ := mem_iff_getElem?.mp mem
  have := places k x here
  omega

theorem Merged.skip (merged : Merged r rest new) (orderly : Orderly r base (e :: rest)) (plain : ¬ Conflicts r e)
    (inside : base + 1 ≤ r.lastOp) : Merged r (e :: rest) new := by
  have place := orderly.places.head
  have beyond : ∀ x ∈ rest, base + 1 < x.viewstamp.opnum := fun x mem => above_base orderly.places.tail mem
  refine ⟨merged.wf,merged.reach,fun k req => (merged.brought k req).trans ?_,fun k => (merged.ends k).trans ?_⟩
  · have cut : CutAt r (e :: rest) k ↔ CutAt r rest k := by simp [CutAt,plain]
    unfold Brought
    rw [cut]
    refine or_congr ⟨?_,?_⟩ Iff.rfl
    · rintro ⟨x,mem,more⟩
      exact ⟨x,.tail _ mem,more⟩
    rintro ⟨x,mem,opnum,same,new⟩
    rcases mem_cons.mp mem with rfl | later
    · rcases new with past | ⟨c,listed,early,_⟩
      · omega
      · have := beyond c listed
        omega
    · exact ⟨x,later,opnum,same,new⟩
  unfold ReachedBy
  simp only [mem_cons,exists_eq_or_imp,forall_eq_or_imp,plain,not_false_eq_true,true_and]
  constructor
  · rintro (past | inside)
    · exact .inl (.inr past)
    · exact .inr inside
  rintro ((here | past) | inside)
  · by_cases some : ∃ c ∈ rest, Conflicts r c
    · obtain ⟨c,listed,_⟩ := some
      have := beyond c listed
      exact .inl ⟨c,listed,by omega⟩
    · exact .inr ⟨by omega,fun c listed clash => some ⟨c,listed,clash⟩⟩
  · exact .inl past
  · exact .inr inside

theorem find_adopted {old log : Log} (wf : log.Wf) (before : old.Wf) (near : base ≤ old.items.length)
    (items : log.items = old.items.take base ++ [e.item]) : (log.find k).map LogEntry.request = some req ↔
      (k = base + 1 ∧ e.request = req) ∨ (old.find k).map LogEntry.request = some req ∧ k ≤ base := by
  have spot (p : Nat) : (old.items.take base ++ [e.item])[p]? =
      if p < base then old.items[p]? else if p = base then some e.item else none := by grind
  rw [find_request wf,find_request before,items]
  simp only [spot]
  constructor
  · rintro ⟨p,rfl,got⟩
    split at got
    next less => exact .inr ⟨⟨p,rfl,got⟩,less⟩
    · split at got
      next last => exact .inl ⟨by rw [last],Option.some.inj got⟩
      · cases got
  · rintro (⟨rfl,rfl⟩ | ⟨⟨p,rfl,got⟩,less⟩)
    · exact ⟨base,rfl,by simp [LogEntry.item]⟩
    · exact ⟨p,rfl,by rw [if_pos (Nat.lt_of_succ_le less)]; exact got⟩

theorem Orderly.kept (orderly : Orderly r base entries) (taken : r.lastOp < k ∨ CutAt r entries k ↔ base < k) :
    (r.log.find k).map LogEntry.request = some req ∧ ¬ CutAt r entries k ↔
      (r.log.find k).map LogEntry.request = some req ∧ k ≤ base := by
  have count := orderly.lastOp
  refine and_congr_right fun found => ?_
  obtain ⟨x,here,_⟩ := Option.map_eq_some_iff.mp found
  have := Log.find_inside orderly.wf here
  constructor
  · intro whole
    by_contra past
    rcases taken.mpr (by omega) with _ | cut
    · omega
    · exact whole cut
  · intro _ cut
    have := taken.mp (.inr cut)
    omega

-- The log ends with this entry, and the rest of them come behind it.
theorem Orderly.adopt {log : Log} (orderly : Orderly r base (e :: rest)) (wf : log.Wf) (items : log.items = r.log.items.take base ++ [e.item])
    (taken : ∀ k, r.lastOp < k ∨ CutAt r (e :: rest) k ↔ base < k) (fresh : r.lastCommitted ≤ base) :
    Orderly {r with lastOp := base + 1, log := log} (base + 1) rest ∧
      ∀ new, Merged {r with lastOp := base + 1, log := log} rest new → Merged r (e :: rest) new := by
  have place := orderly.places.head
  have near := orderly.near
  have count := orderly.lastOp
  have length : log.items.length = base + 1 := by
    rw [items,length_append,length_take,length_singleton]
    omega
  have plain : ∀ x ∈ rest, ¬ Conflicts {r with lastOp := base + 1, log := log} x := by
    rintro x mem ⟨_,old,found,_⟩
    have := Log.find_inside wf found
    have := above_base orderly.places.tail mem
    omega
  refine ⟨⟨wf,length.symm,Nat.le_succ_of_le fresh,orderly.places.tail,le_rfl⟩,fun new merged => ?_⟩
  refine ⟨merged.wf,merged.reach,fun k req => (merged.brought k req).trans ?_,fun k => (merged.ends k).trans ?_⟩
  · have uncut : ¬ CutAt {r with lastOp := base + 1, log := log} rest k := by
      rintro ⟨c,listed,_,clash⟩
      exact plain c listed clash
    unfold Brought
    rw [taken]
    rw [orderly.kept (taken k)]
    simp only [uncut,or_false,not_false_eq_true,and_true,find_adopted wf orderly.wf (count ▸ near) items,mem_cons,exists_eq_or_imp,place]
    constructor
    · rintro (⟨x,mem,rfl,same,past⟩ | ⟨rfl,same⟩ | inside)
      · exact .inl (.inr ⟨x,mem,rfl,same,by omega⟩)
      · exact .inl (.inl ⟨rfl,same,Nat.lt_succ_self _⟩)
      · exact .inr inside
    · rintro ((⟨rfl,same,_⟩ | ⟨x,mem,rfl,same,past⟩) | inside)
      · exact .inr (.inl ⟨rfl,same⟩)
      · exact .inl ⟨x,mem,rfl,same,above_base orderly.places.tail mem⟩
      · exact .inr (.inr inside)
  have quiet : (∀ x ∈ e :: rest, ¬ Conflicts r x) → r.lastOp = base := by
    intro none
    have whole : ∀ k, ¬ CutAt r (e :: rest) k := by
      rintro k ⟨c,listed,_,clash⟩
      exact none c listed clash
    have first := taken (base + 1)
    have last := taken r.lastOp
    simp only [whole,or_false] at first last
    omega
  unfold ReachedBy
  simp only [mem_cons,exists_eq_or_imp,place]
  constructor
  · rintro (past | ⟨inside,_⟩)
    · exact .inl (.inr past)
    · exact .inl (.inl inside)
  rintro ((here | past) | ⟨inside,none⟩)
  · exact .inr ⟨here,plain⟩
  · exact .inl past
  · have := quiet (by simpa using none)
    exact .inr ⟨by omega,plain⟩

theorem transferLoop_orderly (old : Nat) (entries : List LogEntry) (orderly : Orderly r base entries) :
    ∃ new last, transferLoop entries old r = (last,⟨{r with lastOp := new.items.length, log := new},[]⟩) ∧ Merged r entries new := by
  induction entries generalizing r base old with
  | nil =>
    have count := orderly.lastOp
    refine ⟨r.log,old,?_,orderly.wf,count ▸ orderly.committed,by simp [Brought,CutAt],by simp [ReachedBy,count]⟩
    unfold transferLoop
    rw [← count]
  | cons e rest ih =>
    have place := orderly.places.head
    have count := orderly.lastOp
    rcases transferLoop_step rest old orderly.wf count place orderly.near orderly.committed with
      ⟨run,plain,inside⟩ | ⟨log,last,run,wf,items,fresh,replaced⟩
    · obtain ⟨new,last,more,merged⟩ := ih old ⟨orderly.wf,count,orderly.committed,orderly.places.tail,inside⟩
      exact ⟨new,last,run.trans more,merged.skip orderly plain inside⟩
    have taken (k : Nat) : r.lastOp < k ∨ CutAt r (e :: rest) k ↔ base < k := by
      constructor
      · rintro (past | ⟨c,listed,early,_⟩)
        · exact orderly.near.trans_lt past
        · exact (above_base orderly.places listed).trans_le early
      · intro past
        rcases replaced with rfl | clash
        · exact .inl past
        · exact .inr ⟨e,mem_cons_self,by omega,clash⟩
    obtain ⟨next,same⟩ := orderly.adopt wf items taken fresh
    obtain ⟨new,last,more,merged⟩ := ih last next
    exact ⟨new,last,run.trans more,same new merged⟩

end

theorem joinTransfer_eq (r : Replica env.config.n σ) (view : Nat) :
    (joinTransfer env i r view).view = max r.view view ∧ (joinTransfer env i r view).lastOp = r.lastOp ∧
      (joinTransfer env i r view).log = r.log := by
  unfold joinTransfer
  split
  next later =>
    exact ⟨(Nat.max_eq_right (Nat.le_of_lt later)).symm,rfl,rfl⟩
  next recent =>
    exact ⟨(Nat.max_eq_left (Nat.le_of_not_lt recent)).symm,rfl,rfl⟩

theorem forget_prepares (e : Effect n σ) :
    (e.andThen fun t => ⟨{t with pendingPrepares := []},[]⟩).replica.view = e.replica.view ∧
    (e.andThen fun t => ⟨{t with pendingPrepares := []},[]⟩).replica.lastOp = e.replica.lastOp ∧
    (e.andThen fun t => ⟨{t with pendingPrepares := []},[]⟩).replica.log = e.replica.log := by
  unfold Effect.andThen
  split
  · exact ⟨rfl,rfl,rfl⟩
  · exact ⟨rfl,rfl,rfl⟩

def waiting : Replica 3 Unit :=
  {Replica.new three (1 : Fin 3) () with pendingPrepares := [(.replica 0,⟨0,2,2,[⟨"b",8,1⟩]⟩)]}

def late : StateTransferMessage := ⟨0,0,[entry 0 1 "a" 7,entry 0 2 "b" 8]⟩

def early : StateTransferMessage := ⟨0,0,[entry 0 1 "a" 7]⟩

end DbExp.Tapir.Vr
