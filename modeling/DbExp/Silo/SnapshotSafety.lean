import DbExp.Silo.SnapshotGc
import Mathlib.Data.List.TakeWhile

namespace DbExp.Silo
open Function
open List (mem_map mem_cons mem_singleton mem_append mem_cons_self not_mem_nil)
open Version (tuple)
open Function (forall_update_iff)
open List.Sublist (refl)

structure ChainsSound (current next : Nat) (chains : Nat → List Version) : Prop where
  epochs : ∀ k, ∀ v ∈ chains k, 1 ≤ epochId v.version ∧ epochId v.version ≤ current
  distinct : ∀ k, ((chains k).map tuple).Nodup
  fresh : ∀ k, ∀ v ∈ chains k, v.tuple < next

section
variable (sound : ChainsSound current next chains)
include sound

theorem ChainsSound.written : ∀ v ∈ chains k, v.version ≠ minTid := by
  intro v held zero
  have epoch := (sound.epochs k v held).1
  rw [zero] at epoch
  exact absurd epoch (by decide)

theorem ChainsSound.later (grows : current ≤ newer) : ChainsSound newer next chains where
  epochs := fun k v held => ⟨(sound.epochs k v held).1,Nat.le_trans (sound.epochs k v held).2 grows⟩
  distinct := sound.distinct
  fresh := sound.fresh

theorem ChainsSound.unused : next ∉ (chains k).map tuple := by
  intro held
  obtain ⟨v,inChain,_⟩ := mem_map.mp held
  have below := sound.fresh k v inChain
  omega

theorem ChainsSound.write (early : 1 ≤ epochId tid ∧ epochId tid ≤ current)
    (multiplier : Nat) (delete fits : Bool) :
    ChainsSound current (next + 1) (update chains k (writeRecordAt multiplier next tid delete fits (chains k)).1) where
  epochs := by
    refine (forall_update_iff chains (fun _ chain => ∀ v ∈ chain, 1 ≤ epochId v.version ∧ epochId v.version ≤ current)).mpr
      ⟨?_,fun d _ => sound.epochs d⟩
    intro v held
    rcases writeRecordAt_versions held with new | ⟨w,old,same⟩
    · rw [new]; exact early
    · rw [← same]; exact sound.epochs k w old
  distinct := by
    refine (forall_update_iff chains (fun _ chain => (chain.map tuple).Nodup)).mpr ⟨?_,fun d _ => sound.distinct d⟩
    rcases writeRecordAt_tuples multiplier next tid delete fits (chains k) with same | more
    · rw [same]; exact sound.distinct k
    · exact more.nodup_iff.mpr (List.nodup_cons.mpr ⟨sound.unused,sound.distinct k⟩)
  fresh := by
    refine (forall_update_iff chains (fun _ chain => ∀ v ∈ chain, v.tuple < next + 1)).mpr ⟨?_,?_⟩
    · intro v held
      have named := List.mem_map_of_mem (f := tuple) held
      have old : v.tuple ∈ (chains k).map tuple → v.tuple < next + 1 := by
        intro inChain
        obtain ⟨w,there,same⟩ := mem_map.mp inChain
        have below := sound.fresh k w there
        omega
      rcases writeRecordAt_tuples multiplier next tid delete fits (chains k) with same | more
      · exact old (same ▸ named)
      · rcases mem_cons.mp (more.mem_iff.mp named) with new | inChain
        · omega
        · exact old inChain
    · intro d _ v held
      exact Nat.lt_succ_of_lt (sound.fresh d v held)

end

def Apart (e f : DeleteEntry) : Prop := e.logical = true → f.logical = true → e.chain = f.chain → e.tuple ≠ f.tuple

theorem Apart.symm (apart : Apart e f) : Apart f e := by
  intro second first same equal
  exact apart first second same.symm equal.symm

theorem apart_of_plain (plain : f.logical = false) : Apart e f := by
  intro _ logical
  rw [plain] at logical
  cases logical

structure Filed (multiplier : Nat) (chains : Nat → List Version) (removed : Nat → Bool) (pending : Nat → List DeleteEntry) : Prop where
  plain : ∀ c, ∀ e ∈ pending c, e.logical = false → Covered multiplier (chains e.chain) e.tuple e.tick
  logical : ∀ c, ∀ e ∈ pending c, e.logical = true → ∃ v ∈ chains e.chain, v.tuple = e.tuple ∧ v.deleting = true
  own : ∀ c, (pending c).Pairwise Apart
  cross : ∀ c d, c ≠ d → ∀ e ∈ pending c, ∀ f ∈ pending d, Apart e f
  gone : ∀ c, ∀ e ∈ pending c, e.logical = true → removed e.chain = true → (chains e.chain).head?.map tuple ≠ some e.tuple

theorem mem_onDbtupleSpill (held : e ∈ onDbtupleSpill multiplier k tid rest) :
    ∃ old, rest = some old ∧ e = ⟨k,old.tuple,toReadOnlyTick multiplier (epochId tid),false⟩ := by
  cases rest with
  | none => cases held
  | some old =>
    simp only [onDbtupleSpill] at held
    split at held
    · cases held
    · exact ⟨old,rfl,mem_singleton.mp held⟩

theorem onDbtupleSpill_apart : (onDbtupleSpill multiplier k tid rest).Pairwise Apart := by
  cases rest with
  | none => exact .nil
  | some old =>
    simp only [onDbtupleSpill]
    split
    · exact .nil
    · exact List.pairwise_singleton _ _

section
variable (filed : Filed multiplier chains removed pending)
include filed

theorem Filed.sublist (fewer : ∀ c, (remaining c).Sublist (pending c)) :
    Filed multiplier chains removed remaining where
  plain := fun c e held => filed.plain c e ((fewer c).subset held)
  logical := fun c e held => filed.logical c e ((fewer c).subset held)
  own := fun c => (filed.own c).sublist (fewer c)
  cross := fun c d other e held f there => filed.cross c d other e ((fewer c).subset held) f ((fewer d).subset there)
  gone := fun c e held => filed.gone c e ((fewer c).subset held)

theorem Filed.append (plain : ∀ e ∈ more, e.logical = false → Covered multiplier (chains e.chain) e.tuple e.tick)
    (logical : ∀ e ∈ more, e.logical = true → (∃ v ∈ chains e.chain, v.tuple = e.tuple ∧ v.deleting = true) ∧ removed e.chain = false)
    (own : more.Pairwise Apart) (new : ∀ c, ∀ e ∈ pending c, ∀ f ∈ more, Apart e f) :
    Filed multiplier chains removed (update pending core (pending core ++ more)) where
  plain := by
    refine (forall_update_iff pending
      (fun _ es => ∀ e ∈ es, e.logical = false → Covered multiplier (chains e.chain) e.tuple e.tick)).mpr ⟨?_,fun d _ => filed.plain d⟩
    exact List.forall_mem_append.mpr ⟨filed.plain core,plain⟩
  logical := by
    refine (forall_update_iff pending
      (fun _ es => ∀ e ∈ es, e.logical = true → ∃ v ∈ chains e.chain, v.tuple = e.tuple ∧ v.deleting = true)).mpr
      ⟨?_,fun d _ => filed.logical d⟩
    intro e held marked
    rcases mem_append.mp held with old | added
    · exact filed.logical core e old marked
    · exact (logical e added marked).1
  own := by
    refine (forall_update_iff pending (fun _ es => es.Pairwise Apart)).mpr ⟨?_,fun d _ => filed.own d⟩
    exact List.pairwise_append.mpr ⟨filed.own core,own,new core⟩
  cross := by
    intro c d other e held f there
    by_cases mine : c = core
    · subst mine
      rw [update_self] at held
      rw [update_of_ne other.symm] at there
      rcases mem_append.mp held with old | added
      · exact filed.cross c d other e old f there
      · exact (new d f there e added).symm
    rw [update_of_ne mine] at held
    by_cases yours : d = core
    · subst yours
      rw [update_self] at there
      rcases mem_append.mp there with old | added
      · exact filed.cross c d other e held f old
      · exact new c e held f added
    · rw [update_of_ne yours] at there
      exact filed.cross c d other e held f there
  gone := by
    refine (forall_update_iff pending (fun _ es => ∀ e ∈ es, e.logical = true → removed e.chain = true →
      (chains e.chain).head?.map tuple ≠ some e.tuple)).mpr ⟨?_,fun d _ => filed.gone d⟩
    intro e held marked taken
    rcases mem_append.mp held with old | added
    · exact filed.gone core e old marked taken
    · rw [(logical e added marked).2] at taken
      cases taken

theorem Filed.chain (sound : ChainsSound current next chains)
    (live : removed k = false) (delete fits : Bool) :
    Filed multiplier (update chains k (writeRecordAt multiplier next tid delete fits (chains k)).1) removed pending where
  plain := by
    intro c e held plain
    have covered := filed.plain c e held plain
    by_cases same : e.chain = k
    · rw [same] at covered ⊢
      rw [update_self]
      exact covered.write sound.written _ _ _ _
    · rw [update_of_ne same]
      exact covered
  logical := by
    intro c e held marked
    have listed := filed.logical c e held marked
    by_cases same : e.chain = k
    · rw [same] at listed ⊢
      obtain ⟨v,inChain,named,deleted⟩ := listed
      rw [update_self]
      exact ⟨v,writeRecordAt_deleting inChain deleted,named,deleted⟩
    · rw [update_of_ne same]
      exact listed
  own := filed.own
  cross := filed.cross
  gone := by
    intro c e held marked taken
    have other : e.chain ≠ k := by
      intro same
      rw [same,live] at taken
      cases taken
    rw [update_of_ne other]
    exact filed.gone c e held marked taken

omit filed in
theorem mem_onLogicalDelete (held : e ∈ onLogicalDelete multiplier k tid before chain) :
    ∃ latest older, chain = latest :: older ∧ latest.deleting = true ∧
      e = ⟨k,latest.tuple,toReadOnlyTick multiplier (epochId tid),true⟩ := by
  cases chain with
  | nil => cases held
  | cons latest older =>
    simp only [onLogicalDelete] at held
    split at held
    next deleted =>
      exact ⟨latest,older,rfl,deleted.1,mem_singleton.mp held⟩
    · cases held

omit filed in
theorem onLogicalDelete_apart : (onLogicalDelete multiplier k tid before chain).Pairwise Apart := by
  cases chain with
  | nil => exact .nil
  | cons latest older =>
    simp only [onLogicalDelete]
    split
    · exact List.pairwise_singleton _ _
    · exact .nil

theorem Filed.deletes_once (sound : ChainsSound current next chains)
    (held : e ∈ pending c) (added : f ∈ onLogicalDelete multiplier k tid before (writeRecordAt multiplier next tid delete fits (chains k)).1) :
    Apart e f := by
  obtain ⟨_,_,shape,_,rfl⟩ := mem_onLogicalDelete added
  intro marked _ same equal
  obtain ⟨v,inChain,named,deleted⟩ := filed.logical c e held marked
  simp only at same equal
  rw [same] at inChain
  rcases writeRecordAt_head shape with _ | ⟨_,_,chain,kept,alive⟩
  · have below := sound.fresh k v inChain
    omega
  have distinct := sound.distinct k
  rw [chain] at distinct inChain
  rcases mem_cons.mp inChain with first | old
  · rw [← first,deleted] at alive
    cases alive
  · exact (List.nodup_cons.mp distinct).1 (mem_map.mpr ⟨v,old,by rw [named,equal,kept]⟩)

theorem Filed.write (sound : ChainsSound current next chains)
    (live : removed k = false) (core tid : Nat) (delete fits : Bool)
    (after : List Version × Option Version) (result : after = writeRecordAt multiplier next tid delete fits (chains k)) :
    Filed multiplier (update chains k after.1) removed (update pending core
      (pending core ++ (onDbtupleSpill multiplier k tid after.2 ++ onLogicalDelete multiplier k tid (chains k) after.1))) := by
  subst result
  apply (filed.chain sound live delete fits).append
  · intro e added plain
    rcases mem_append.mp added with spilled | deleted
    · obtain ⟨_,rest,rfl⟩ := mem_onDbtupleSpill spilled
      rw [update_self]
      exact writeRecordAt_spilled rest
    · obtain ⟨_,_,_,_,rfl⟩ := mem_onLogicalDelete deleted
      cases plain
  · intro e added marked
    rcases mem_append.mp added with spilled | deleted
    · obtain ⟨_,_,rfl⟩ := mem_onDbtupleSpill spilled
      cases marked
    obtain ⟨latest,_,shape,gone,rfl⟩ := mem_onLogicalDelete deleted
    refine ⟨⟨latest,?_,rfl,gone⟩,live⟩
    rw [update_self,shape]
    exact mem_cons_self
  · refine List.pairwise_append.mpr ⟨onDbtupleSpill_apart,onLogicalDelete_apart,?_⟩
    intro e spilled f _
    obtain ⟨_,_,rfl⟩ := mem_onDbtupleSpill spilled
    exact (apart_of_plain rfl).symm
  intro c e held f added
  rcases mem_append.mp added with spilled | deleted
  · obtain ⟨_,_,rfl⟩ := mem_onDbtupleSpill spilled
    exact apart_of_plain rfl
  · exact filed.deletes_once sound held deleted

theorem Filed.requeue (core : Nat) (plain : e.logical = false)
    (covered : Covered multiplier (chains e.chain) e.tuple e.tick) :
    Filed multiplier chains removed (update pending core (pending core ++ [e])) := by
  apply filed.append
  · intro f added _
    rw [mem_singleton.mp added]
    exact covered
  · intro f added marked
    rw [mem_singleton.mp added,plain] at marked
    cases marked
  · exact List.pairwise_singleton _ _
  · intro c f _ g added
    rw [mem_singleton.mp added]
    exact apart_of_plain plain

theorem Filed.remove (listed : pending core = e :: rest) (marked : e.logical = true)
    (latest : (chains e.chain).head?.map tuple = some e.tuple) :
    Filed multiplier chains (update removed e.chain true) (update pending core rest) := by
  have shorter : ∀ c, (update pending core rest c).Sublist (pending c) := by
    refine (forall_update_iff pending (fun c es => es.Sublist (pending c))).mpr ⟨?_,fun d _ => refl _⟩
    rw [listed]
    exact List.sublist_cons_self e rest
  have kept := filed.sublist shorter
  refine ⟨kept.plain,kept.logical,kept.own,kept.cross,?_⟩
  intro c f held gone taken
  by_cases same : f.chain = e.chain
  · have other : e.tuple ≠ f.tuple := by
      by_cases mine : c = core
      · subst mine
        rw [update_self] at held
        have own := filed.own c
        rw [listed] at own
        exact List.rel_of_pairwise_cons own held marked gone same.symm
      · rw [update_of_ne mine] at held
        exact filed.cross core c (Ne.symm mine) e (by rw [listed]; exact mem_cons_self) f held marked gone same.symm
    rw [same,latest]
    exact fun equal => other (Option.some.inj equal)
  · rw [update_of_ne same] at taken
    exact kept.gone c f held gone taken

end

theorem ChainsSound.covered (sound : ChainsSound current next chains) (multiplier : Nat) (held : v ∈ chains k)
    (behind : (chains k).head?.map tuple ≠ some v.tuple) :
    Covered multiplier (chains k) v.tuple (toReadOnlyTick multiplier current) := by
  obtain ⟨front,rest,shape⟩ := List.append_of_mem held
  rcases List.eq_nil_or_concat front with rfl | ⟨older,pred,rfl⟩
  · rw [shape] at behind
    exact absurd rfl behind
  · refine ⟨older,pred,v,rest,by rw [shape]; simp,rfl,?_⟩
    exact Nat.div_le_div_right (sound.epochs k pred (by rw [shape]; simp)).2

structure UnderGuard (tick current : Nat) (chains : Nat → List Version) (snapshots : List Nat) (found : List (Nat × Nat))
    (commitTid : Option Nat) : Prop where
  reads : ∀ g ∈ snapshots, tick ≤ g + 1
  tuples : ∀ k x, (k,x) ∈ found → Recent (chains k) x tick
  commit : ∀ tid, commitTid = some tid → 1 ≤ epochId tid ∧ tick ≤ epochId tid ∧ epochId tid ≤ current

theorem underGuard_idle : UnderGuard tick current chains [] [] none where
  reads := fun _ held => (not_mem_nil held).elim
  tuples := fun _ _ held => (not_mem_nil held).elim
  commit := nofun

def TxnSound (phase : Phase) (current : Nat) (chains : Nat → List Version) (snapshots : List Nat) (found : List (Nat × Nat))
    (commitTid : Option Nat) : Prop :=
  match phase with
  | .inside tick _ => UnderGuard tick current chains snapshots found commitTid
  | _ => snapshots = [] ∧ found = [] ∧ commitTid = none

theorem txnSound_idle (phase : Phase) : TxnSound phase current chains [] [] none := by
  cases phase with
  | inside tick depth => exact underGuard_idle
  | _ => exact ⟨rfl,rfl,rfl⟩

section
variable (sound : TxnSound phase current chains snapshots got commitTid)
include sound

theorem TxnSound.inside (held : phase = .inside tick depth) :
    UnderGuard tick current chains snapshots got commitTid := by
  rw [held] at sound
  exact sound

theorem TxnSound.change (keeps : ∀ tick depth, phase = .inside tick depth → ∃ deeper, after = .inside tick deeper)
    (step : ∀ tick, UnderGuard tick current chains snapshots got commitTid → (∃ depth, phase = .inside tick depth) →
      UnderGuard tick current' chains' snapshots got commitTid) :
    TxnSound after current' chains' snapshots got commitTid := by
  cases phase with
  | inside tick depth =>
    obtain ⟨deeper,still⟩ := keeps tick depth rfl
    rw [still]
    exact step tick sound ⟨depth,rfl⟩
  | _ =>
    obtain ⟨rfl,rfl,rfl⟩ := sound
    exact txnSound_idle after

end

section
variable (sound : UnderGuard tick current chains snapshots got commitTid)
include sound

theorem UnderGuard.later (grows : current ≤ newer) :
    UnderGuard tick newer chains snapshots got commitTid where
  reads := sound.reads
  tuples := sound.tuples
  commit := by
    intro tid started
    obtain ⟨positive,after,before⟩ := sound.commit tid started
    exact ⟨positive,after,Nat.le_trans before grows⟩

theorem UnderGuard.write (now : tick ≤ epochId tid + 1)
    (multiplier fresh : Nat) (delete fits : Bool) :
    UnderGuard tick current (update chains k (writeRecordAt multiplier fresh tid delete fits (chains k)).1)
      snapshots got commitTid where
  reads := sound.reads
  tuples := by
    intro d x held
    have recent := sound.tuples d x held
    by_cases same : d = k
    · subst same
      rw [update_self]
      exact recent.write now multiplier fresh delete fits
    · rw [update_of_ne same]
      exact recent
  commit := sound.commit

end

namespace Gc
variable {cfg : GcConfig} {s t : GcState}

def pending (s : GcState) (core : Nat) : List DeleteEntry := s.scratch core ++ s.queue core

-- Entries are taken for cleaning, and versions freed, only when their read-only epoch is
-- over for every snapshot that runs or is still to start.
structure Sound (cfg : GcConfig) (s : GcState) : Prop where
  ticker : s.ticker.Sound cfg.cores
  chains : ChainsSound s.ticker.currentTick s.nextTuple s.chains
  filed : Filed cfg.multiplier s.chains s.removed (pending s)
  txns : ∀ c, TxnSound (s.ticker.phase c) s.ticker.currentTick s.chains (s.snapshots c) (s.found c) (s.commitTid c)
  ripe : ∀ c, ∀ e ∈ s.scratch c, e.tick < s.ticker.lastTickInclusive / cfg.multiplier
  freed : ∀ e ∈ s.freed, Covered cfg.multiplier (s.chains e.chain) e.tuple e.tick ∧
    e.tick < s.ticker.lastTickInclusive / cfg.multiplier

theorem initial_sound (cfg : GcConfig) : Sound cfg initial where
  ticker := Ticker.initial_sound
  chains := ⟨fun _ _ held => (not_mem_nil held).elim,fun _ => List.nodup_nil,fun _ _ held => (not_mem_nil held).elim⟩
  filed := ⟨fun _ _ held => (not_mem_nil held).elim,fun _ _ held => (not_mem_nil held).elim,fun _ => .nil,
    fun _ _ _ _ held => (not_mem_nil held).elim,fun _ _ held => (not_mem_nil held).elim⟩
  txns := fun _ => txnSound_idle _
  ripe := fun _ _ held => (not_mem_nil held).elim
  freed := fun _ held => (not_mem_nil held).elim

theorem guarded_iff : guarded s c = true ↔ ∃ tick depth, s.ticker.phase c = .inside tick depth := by
  simp only [guarded]
  split
  next tick depth holding =>
    exact ⟨fun _ => ⟨tick,depth,holding⟩,fun _ => rfl⟩
  rename_i outside
  constructor
  · intro absurdly; cases absurdly
  · rintro ⟨tick,depth,holding⟩
    exact absurd holding (outside tick depth)

section
variable (sound : Sound cfg s)
include sound

theorem Sound.ticks {clock : Ticker} {snapshots : Nat → List Nat} {found : Nat → List (Nat × Nat)} {commits : Nat → Option Nat}
    (taken : s.ticker.step cfg.cores a = some clock)
    (txns : ∀ c, TxnSound (clock.phase c) clock.currentTick s.chains (snapshots c) (found c) (commits c)) :
    Sound cfg { s with ticker := clock, snapshots := snapshots, found := found, commitTid := commits } := by
  have current := Ticker.step_currentTick taken
  have last := Nat.div_le_div_right (c := cfg.multiplier) (Ticker.step_lastTickInclusive sound.ticker taken)
  refine ⟨sound.ticker.step taken,sound.chains.later current,sound.filed,txns,?_,?_⟩
  · intro c e held
    exact Nat.lt_of_lt_of_le (sound.ripe c e held) last
  · intro e held
    obtain ⟨covered,elapsed⟩ := sound.freed e held
    exact ⟨covered,Nat.lt_of_lt_of_le elapsed last⟩

theorem Sound.keeps_txn (taken : s.ticker.step cfg.cores a = some clock)
    (keeps : ∀ tick depth, s.ticker.phase c = .inside tick depth → ∃ deeper, clock.phase c = .inside tick deeper) :
    TxnSound (clock.phase c) clock.currentTick s.chains (s.snapshots c) (s.found c) (s.commitTid c) := by
  apply (sound.txns c).change keeps
  intro tick under _
  exact under.later (Ticker.step_currentTick taken)

theorem Sound.tick (taken : s.ticker.step cfg.cores a = some clock) :
    Sound cfg (leftBy { s with ticker := clock } a) := by
  by_cases leaves : ∃ c, a = .leave c
  · obtain ⟨c,rfl⟩ := leaves
    have others : ∀ d, d ≠ c → TxnSound (clock.phase d) clock.currentTick s.chains (s.snapshots d) (s.found d) (s.commitTid d) := by
      intro d other
      apply sound.keeps_txn taken
      intro tick depth holding
      exact Ticker.step_inside taken holding (fun same => other (TickerAct.leave.inj same).symm)
    simp only [leftBy]
    split
    next nested =>
      apply sound.ticks taken
      intro d
      by_cases same : d = c
      · subst same
        apply sound.keeps_txn taken
        intro tick depth holding
        simp only [Ticker.step,holding,Option.some.injEq] at taken
        subst taken
        obtain ⟨_,_,still⟩ := guarded_iff.mp nested
        simp only [Ticker.setPhase_self] at still ⊢
        split at still
        · cases still
        · exact ⟨depth - 1,if_neg ‹_›⟩
      · exact others d same
    · apply sound.ticks taken
      intro d
      by_cases same : d = c
      · subst same
        simp only [update_self]
        exact txnSound_idle _
      · simp only [update_of_ne same]
        exact others d same
  have same : leftBy { s with ticker := clock } a = { s with ticker := clock } := by
    cases a with
    | leave c => exact absurd ⟨c,rfl⟩ leaves
    | _ => rfl
  rw [same]
  apply sound.ticks taken
  intro c
  apply sound.keeps_txn taken
  intro tick depth holding
  exact Ticker.step_inside taken holding (fun equal => leaves ⟨c,equal⟩)

theorem Sound.proceeds {snapshots : Nat → List Nat} {found : Nat → List (Nat × Nat)} {commits : Nat → Option Nat} (held : guarded s c = true)
    (others : ∀ d, d ≠ c → snapshots d = s.snapshots d ∧ found d = s.found d ∧ commits d = s.commitTid d)
    (mine : ∀ tick depth, s.ticker.phase c = .inside tick depth →
      UnderGuard tick s.ticker.currentTick s.chains (s.snapshots c) (s.found c) (s.commitTid c) →
      UnderGuard tick s.ticker.currentTick s.chains (snapshots c) (found c) (commits c)) :
    Sound cfg { s with snapshots := snapshots, found := found, commitTid := commits } := by
  refine ⟨sound.ticker,sound.chains,sound.filed,?_,sound.ripe,sound.freed⟩
  intro d
  by_cases same : d = c
  · subst same
    obtain ⟨tick,depth,holding⟩ := guarded_iff.mp held
    have under := mine tick depth holding ((sound.txns d).inside holding)
    simp only [holding]
    exact under
  · obtain ⟨snaps,tuples,tid⟩ := others d same
    simp only [snaps,tuples,tid]
    exact sound.txns d

theorem Sound.snapshot (held : guarded s c = true) :
    Sound cfg { s with snapshots := update s.snapshots c (s.ticker.globalLastTickExclusive :: s.snapshots c) } := by
  apply sound.proceeds held
  · intro d other
    exact ⟨update_of_ne other _ _,rfl,rfl⟩
  intro tick depth holding under
  refine ⟨?_,under.tuples,under.commit⟩
  rw [update_self]
  intro g listed
  rcases mem_cons.mp listed with rfl | old
  · exact (sound.ticker.guarded holding).2.1
  · exact under.reads g old

theorem Sound.lookup (held : guarded s c = true) (chain : s.chains k = head :: rest) :
    Sound cfg { s with found := update s.found c ((k,head.tuple) :: s.found c) } := by
  apply sound.proceeds held
  · intro d other
    exact ⟨rfl,update_of_ne other _ _,rfl⟩
  intro tick depth holding under
  refine ⟨under.reads,?_,under.commit⟩
  rw [update_self]
  intro d x listed
  rcases mem_cons.mp listed with now | old
  · cases now
    exact .inl (by rw [chain]; rfl)
  · exact under.tuples d x old

theorem Sound.genCommitTid (held : guarded s c = true) (small : num ≤ maxNumId) :
    Sound cfg { s with commitTid := update s.commitTid c (some (makeTid c num s.ticker.currentTick)) } := by
  apply sound.proceeds held
  · intro d other
    exact ⟨rfl,rfl,update_of_ne other _ _⟩
  intro tick depth holding under
  refine ⟨under.reads,under.tuples,?_⟩
  have inRange : c < cfg.cores := sound.ticker.active (by simp [holding])
  have fits : c ≤ coreMask := by have := cfg.coresFit; omega
  obtain ⟨_,_⟩ := sound.ticker.guarded holding
  rw [update_self]
  intro tid made
  cases made
  rw [epochId_makeTid fits small]
  omega

theorem Sound.write (started : s.commitTid c = some tid) (live : s.removed k = false) (delete fits : Bool) :
    Sound cfg (write cfg s c k tid delete fits) := by
  -- the writer is in a guard of its own, so the ticker is at most one ahead of its id
  have recent : 1 ≤ epochId tid ∧ epochId tid ≤ s.ticker.currentTick ∧ s.ticker.currentTick ≤ epochId tid + 1 := by
    have mine := sound.txns c
    cases phase : s.ticker.phase c with
    | inside tick depth =>
      obtain ⟨positive,_,before⟩ := (mine.inside phase).commit tid started
      have near := (sound.ticker.guarded phase).2.2.2
      exact ⟨positive,before,by omega⟩
    | _ =>
      rw [phase,started] at mine
      cases mine.2.2
  refine ⟨sound.ticker,sound.chains.write ⟨recent.1,recent.2.1⟩ cfg.multiplier delete fits,?_,?_,sound.ripe,?_⟩
  · have filed := sound.filed.write sound.chains live c tid delete fits _ rfl
    have same : pending (Gc.write cfg s c k tid delete fits) = update (pending s) c (pending s c ++
        (onDbtupleSpill cfg.multiplier k tid (writeRecordAt cfg.multiplier s.nextTuple tid delete fits (s.chains k)).2 ++
          onLogicalDelete cfg.multiplier k tid (s.chains k) (writeRecordAt cfg.multiplier s.nextTuple tid delete fits (s.chains k)).1)) := by
      funext d
      by_cases mine : d = c
      · subst mine
        simp [pending,Gc.write]
      · simp [pending,Gc.write,mine]
    rw [same]
    exact filed
  · intro d
    apply (sound.txns d).change (fun tick depth holding => ⟨depth,holding⟩)
    intro tick under inside
    obtain ⟨depth,holding⟩ := inside
    have current := (sound.ticker.guarded holding).2.2.1
    have now : tick ≤ epochId tid + 1 := by omega
    exact under.write now cfg.multiplier s.nextTuple delete fits
  intro e held
  obtain ⟨covered,elapsed⟩ := sound.freed e held
  refine ⟨?_,elapsed⟩
  by_cases mine : e.chain = k
  · rw [mine] at covered ⊢
    simp only [Gc.write,update_self]
    exact covered.write sound.chains.written _ _ _ _
  · simp only [Gc.write,update_of_ne mine]
    exact covered

theorem Sound.collect (empty : s.scratch c = []) (taken : collect cfg s c = some t) : Sound cfg t := by
  simp only [Gc.collect] at taken
  split at taken
  · cases taken
  split at taken
  · cases taken
  cases taken
  refine ⟨sound.ticker,sound.chains,?_,sound.txns,?_,sound.freed⟩
  · refine sound.filed.sublist ?_
    intro d
    by_cases mine : d = c
    · subst mine
      simp only [pending,update_self,List.takeWhile_append_dropWhile,empty,List.nil_append]
      exact refl _
    · simp only [pending,update_of_ne mine]
      exact refl _
  refine (forall_update_iff s.scratch (fun _ es => ∀ e ∈ es, e.tick <
    s.ticker.lastTickInclusive / cfg.multiplier)).mpr ⟨?_,fun d _ => sound.ripe d⟩
  intro e held
  have early := List.mem_takeWhile_imp held
  rw [decide_eq_true_iff] at early
  have bound : toReadOnlyTick cfg.multiplier (s.ticker.globalLastTickExclusive - 1) =
      s.ticker.lastTickInclusive / cfg.multiplier := rfl
  omega

end

theorem pending_reaped (listed : s.scratch c = e :: rest) :
    pending { s with scratch := update s.scratch c rest } = update (pending s) c (rest ++ s.queue c) := by
  funext d
  by_cases mine : d = c
  · subst mine
    simp [pending]
  · simp [pending,mine]

theorem pending_requeued : pending { s with
      scratch := update s.scratch c rest, queue := update s.queue c (s.queue c ++ [e]) } =
    update (update (pending s) c (rest ++ s.queue c)) c
      (update (pending s) c (rest ++ s.queue c) c ++ [e]) := by
  funext d
  by_cases mine : d = c
  · subst mine
    simp [pending]
  · simp [pending,mine]

theorem Sound.reap (sound : Sound cfg s) (listed : s.scratch c = e :: rest) :
    Sound cfg (reapEntry cfg { s with scratch := update s.scratch c rest } c e) := by
  have whole : pending s c = e :: (rest ++ s.queue c) := by simp [pending,listed]
  have first : e ∈ pending s c := by rw [whole]; exact mem_cons_self
  have shorter : ∀ d, (update (pending s) c (rest ++ s.queue c) d).Sublist (pending s d) := by
    refine (forall_update_iff (pending s) (fun d es => es.Sublist (pending s d))).mpr ⟨?_,fun d _ => refl _⟩
    rw [whole]
    exact List.sublist_cons_self _ _
  have left := sound.filed.sublist shorter
  have ripe : ∀ d, ∀ f ∈ update s.scratch c rest d, f.tick < s.ticker.lastTickInclusive / cfg.multiplier := by
    refine (forall_update_iff s.scratch (fun _ es => ∀ f ∈ es, f.tick <
      s.ticker.lastTickInclusive / cfg.multiplier)).mpr ⟨?_,fun d _ => sound.ripe d⟩
    intro f held
    exact sound.ripe c f (by rw [listed]; exact List.mem_cons_of_mem e held)
  simp only [reapEntry]
  split
  next marked =>
    split
    next latest =>
      refine ⟨sound.ticker,sound.chains,?_,sound.txns,ripe,sound.freed⟩
      have top : (s.chains e.chain).head?.map tuple = some e.tuple :=
        of_decide_eq_true (Bool.and_eq_true_iff.mp latest).2
      have removed := sound.filed.remove whole marked top
      rw [← pending_reaped listed] at removed
      exact removed
    rename_i behind
    refine ⟨sound.ticker,sound.chains,?_,sound.txns,ripe,sound.freed⟩
    obtain ⟨v,inChain,named,_⟩ := sound.filed.logical c e first marked
    have notTop : (s.chains e.chain).head?.map tuple ≠ some v.tuple := by
      intro top
      rw [named] at top
      cases gone : s.removed e.chain with
      | true => exact sound.filed.gone c e first marked gone top
      | false => exact behind (by simp [isLatest,gone,top])
    have covered := sound.chains.covered cfg.multiplier inChain notTop
    rw [named] at covered
    rw [pending_requeued]
    exact left.requeue c rfl covered
  next plain =>
    refine ⟨sound.ticker,sound.chains,?_,sound.txns,ripe,?_⟩
    · rw [← pending_reaped listed] at left
      exact left
    intro f held
    rcases mem_cons.mp held with rfl | old
    · exact ⟨sound.filed.plain c f first (by simpa using plain),sound.ripe c f (by rw [listed]; exact mem_cons_self)⟩
    · exact sound.freed f old

theorem Sound.step (sound : Sound cfg s) (taken : Gc.step cfg s a = some t) : Sound cfg t := by
  cases a with
  | tick a =>
    obtain ⟨_,moved,rfl⟩ := Option.map_eq_some_iff.mp taken
    exact sound.tick moved
  | snapshot c =>
    obtain ⟨held,rfl⟩ := of_guard taken
    exact sound.snapshot held
  | genCommitTid c num =>
    obtain ⟨⟨held,small⟩,rfl⟩ := of_guard taken
    exact sound.genCommitTid held small
  | lookup c k =>
    simp only [Gc.step] at taken
    split at taken
    · cases taken
    rename_i head rest chain
    obtain ⟨⟨held,_⟩,rfl⟩ := of_guard taken
    exact sound.lookup held chain
  | write c k delete fits =>
    simp only [Gc.step] at taken
    split at taken
    · cases taken
    rename_i tid started
    rw [Option.ite_none_left_eq_some,Option.some.injEq] at taken
    obtain ⟨live,rfl⟩ := taken
    exact sound.write started (by simpa using live) delete fits
  | collect c =>
    simp only [Gc.step,Option.ite_none_right_eq_some] at taken
    exact sound.collect taken.1.2 taken.2
  | reap c =>
    simp only [Gc.step] at taken
    split at taken
    · cases taken
    next e rest listed =>
      cases taken
      exact sound.reap listed

theorem Sound.guards (sound : Sound cfg s) (started : g ∈ s.snapshots c) : ∃ tick depth, s.ticker.phase c = .inside tick depth ∧
    UnderGuard tick s.ticker.currentTick s.chains (s.snapshots c) (s.found c) (s.commitTid c) := by
  have mine := sound.txns c
  cases phase : s.ticker.phase c with
  | inside tick depth => exact ⟨tick,depth,rfl,mine.inside phase⟩
  | _ =>
    rw [phase] at mine
    rw [mine.1] at started
    cases started

theorem reached_sound (reached : (machine cfg).Reached Machine.anyStep s) : Sound cfg s := by
  apply reached.invariant (Sound cfg) (initial_sound cfg)
  intro s a t _ sound _ taken
  exact sound.step taken

-- A version that a cleanup freed is out of reach of every snapshot that is running, also
-- from a tuple that it found before the cleanup, and of every one that computes its tick
-- from now on.
theorem freed_out_of_reach (reached : (machine cfg).Reached Machine.anyStep s) (freed : e ∈ s.freed) :
    (∀ g, ((∃ c, g ∈ s.snapshots c) ∨ s.ticker.globalLastTickExclusive ≤ g) →
      OutOfReach (computeReadOnlyTid cfg.multiplier g) (s.chains e.chain) e.tuple) ∧
    ∀ c g x, g ∈ s.snapshots c → (e.chain,x) ∈ s.found c →
      OutOfReach (computeReadOnlyTid cfg.multiplier g) (fromTuple x (s.chains e.chain)) e.tuple := by
  have sound := reached_sound reached
  obtain ⟨covered,elapsed⟩ := sound.freed e freed
  have distinct := sound.chains.distinct e.chain
  have running : ∀ c g, g ∈ s.snapshots c → s.ticker.lastTickInclusive ≤ g := by
    intro c g started
    obtain ⟨tick,depth,holding,under⟩ := sound.guards started
    have near := under.reads g started
    have behind := (sound.ticker.guarded holding).1
    omega
  have visible : ∀ g, s.ticker.lastTickInclusive ≤ g → e.tick < g / cfg.multiplier :=
    fun g recent => Nat.lt_of_lt_of_le elapsed (Nat.div_le_div_right recent)
  refine ⟨?_,?_⟩
  · intro g reads
    apply covered.outOfReach distinct (visible g _)
    rcases reads with ⟨c,started⟩ | later
    · exact running c g started
    · simp only [Ticker.globalLastTickExclusive] at later
      omega
  intro c g x started listed
  obtain ⟨tick,depth,holding,under⟩ := sound.guards started
  apply covered.outOfReach_from distinct (visible g (running c g started))
  exact covered.replaced distinct (under.tuples e.chain x listed) elapsed (sound.ticker.guarded holding).1

def roundOfTwo : List GcAct := [.tick .bump,.tick .sync,.tick .sync,.tick .publish]

def enterGuard (core : Nat) : List GcAct := [.tick (.lock core),.tick (.readTick core),.tick (.storeTick core)]

-- A record is written in the first read-only epoch and again in the second; the first
-- version is freed in the third, while a snapshot is running on the other core.
def freeingRun : List GcAct :=
  enterGuard 0 ++ [.genCommitTid 0 1,.write 0 0 false true,.tick (.leave 0)] ++
  (List.replicate 10 roundOfTwo).flatten ++
  enterGuard 0 ++ [.genCommitTid 0 1,.write 0 0 false true,.tick (.leave 0)] ++
  (List.replicate 11 roundOfTwo).flatten ++
  enterGuard 1 ++ [.snapshot 1,.lookup 1 0,.collect 0,.reap 0]

def invariantsBuild : GcConfig := ⟨2,10,by decide,by decide⟩

theorem freed_out_of_reach_running : ∃ s, (machine invariantsBuild).Reached Machine.anyStep s ∧ ∃ e ∈ s.freed, ∃ g ∈ s.snapshots 1,
    OutOfReach (computeReadOnlyTid 10 g) (s.chains e.chain) e.tuple ∧ ∃ x, (e.chain,x) ∈ s.found 1 ∧
      OutOfReach (computeReadOnlyTid 10 g) (fromTuple x (s.chains e.chain)) e.tuple := by
  obtain ⟨s,reached,freed,running,found⟩ := Machine.reached_of_run (machine invariantsBuild) Machine.anyStep
    (fun s => s.freed = [⟨0,1,1,false⟩] ∧ s.snapshots 1 = [22] ∧ s.found 1 = [(0,0)]) freeingRun (by decide +kernel)
  have gone : (⟨0,1,1,false⟩ : DeleteEntry) ∈ s.freed := by rw [freed]; exact List.mem_singleton_self _
  have started : 22 ∈ s.snapshots 1 := by rw [running]; exact List.mem_singleton_self _
  have listed : (0,0) ∈ s.found 1 := by rw [found]; exact List.mem_singleton_self _
  obtain ⟨whole,fromFound⟩ := freed_out_of_reach reached gone
  exact ⟨s,reached,_,gone,22,started,whole 22 (.inl ⟨1,started⟩),0,listed,fromFound 1 22 0 started listed⟩

end Gc
end DbExp.Silo
