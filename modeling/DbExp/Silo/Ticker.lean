import DbExp.Foundation.Machine
import Mathlib.Logic.Function.Basic

namespace DbExp.Silo
open Function

-- Where a core's thread is with its guard. The core's spinlock is held from locked on; it
-- is borrowed while another thread than the core's own holds it.
inductive Phase where
  | outside
  | borrowed
  | locked
  | read (tick : Nat)
  | inside (tick depth : Nat)
  deriving DecidableEq, Repr

structure TickInfo where
  currentTick : Nat
  phase : Phase
  deriving DecidableEq, Repr

-- The ticker thread is between two rounds, or in a round and about to look at a core.
structure Ticker where
  currentTick : Nat
  lastTickInclusive : Nat
  loop : Option Nat
  ticks : Nat → TickInfo

inductive TickerAct where
  | bump
  | sync
  | publish
  | lock (core : Nat)
  | readTick (core : Nat)
  | storeTick (core : Nat)
  | nest (core : Nat)
  | leave (core : Nat)
  | borrow (core : Nat)
  | giveBack (core : Nat)
  deriving DecidableEq, Repr

namespace Ticker

def initial : Ticker := ⟨1,0,none,fun _ => ⟨1,.outside⟩⟩

def globalLastTickExclusive (s : Ticker) : Nat := s.lastTickInclusive + 1

def phase (s : Ticker) (core : Nat) : Phase := (s.ticks core).phase

def setPhase (s : Ticker) (core : Nat) (p : Phase) : Ticker :=
  { s with ticks := update s.ticks core ⟨(s.ticks core).currentTick,p⟩ }

def setTick (s : Ticker) (core tick : Nat) (p : Phase) : Ticker :=
  { s with ticks := update s.ticks core ⟨tick,p⟩ }

-- The rounds of tickerloop, the constructor and destructor of a guard, and a lock taken for
-- a moment by another thread. In a round a core whose tick is current is passed over, the
-- others are waited for at their lock.
def step (cores : Nat) (s : Ticker) : TickerAct → Option Ticker
  | .bump => if s.loop = none then some { s with currentTick := s.currentTick + 1, loop := some 0 } else none
  | .sync =>
    match s.loop with
    | none => none
    | some i =>
      if i < cores ∧ ((s.ticks i).currentTick = s.currentTick ∨ s.phase i = .outside) then
        some { s.setTick i s.currentTick (s.phase i) with loop := some (i + 1) }
      else none
  | .publish =>
    if s.loop = some cores then some { s with lastTickInclusive := s.currentTick - 1, loop := none } else none
  | .lock c => if s.phase c = .outside ∧ c < cores then some (s.setPhase c .locked) else none
  | .readTick c => if s.phase c = .locked then some (s.setPhase c (.read s.currentTick)) else none
  | .storeTick c =>
    match s.phase c with
    | .read tick => some (s.setTick c tick (.inside tick 1))
    | _ => none
  | .nest c =>
    match s.phase c with
    | .inside tick depth => some (s.setPhase c (.inside tick (depth + 1)))
    | _ => none
  | .leave c =>
    match s.phase c with
    | .inside tick depth => some (s.setPhase c (if depth ≤ 1 then .outside else .inside tick (depth - 1)))
    | _ => none
  | .borrow c => if s.phase c = .outside ∧ c < cores then some (s.setPhase c .borrowed) else none
  | .giveBack c => if s.phase c = .borrowed then some (s.setPhase c .outside) else none

@[simp] theorem setPhase_self (s : Ticker) : (s.setPhase c p).phase c = p := by simp [setPhase,phase]

@[simp] theorem setTick_self (s : Ticker) : (s.setTick c tick p).phase c = p := by simp [setTick,phase]

theorem setTick_other (s : Ticker) (other : d ≠ c) : (s.setTick c tick p).phase d = s.phase d := by
  simp [setTick,phase,other]

-- What the state of one core says about the two global ticks. A core may lag one tick
-- behind only while the round has still to come to it.
def CoreSound (current : Nat) (loop : Option Nat) (c : Nat) (info : TickInfo) : Prop :=
  (info.currentTick = current ∨ info.currentTick + 1 = current ∧ ∃ i, loop = some i ∧ i ≤ c) ∧
  match info.phase with
  | .read tick => tick = current ∨ tick + 1 = current ∧ info.currentTick = tick
  | .inside tick _ => info.currentTick = tick
  | _ => True

structure Sound (cores : Nat) (s : Ticker) : Prop where
  last : s.currentTick = s.lastTickInclusive + if s.loop.isNone then 1 else 2
  core : ∀ c, c < cores → CoreSound s.currentTick s.loop c (s.ticks c)
  within : ∀ c, cores ≤ c → s.phase c = .outside

theorem initial_sound : Sound cores initial where
  last := rfl
  core := fun _ _ => ⟨.inl rfl,trivial⟩
  within := fun _ _ => rfl

theorem CoreSound.bump (sound : CoreSound current none c info) : CoreSound (current + 1) (some 0) c info := by
  obtain ⟨mine,rest⟩ := sound
  have stored : info.currentTick = current := by
    rcases mine with stored | ⟨_,_,loop,_⟩
    · exact stored
    · cases loop
  refine ⟨.inr ⟨by omega,0,rfl,by omega⟩,?_⟩
  rcases info with ⟨_,phase⟩
  cases phase with
  | read seen => simp only at rest stored ⊢; omega
  | _ => exact rest

theorem CoreSound.publish (sound : CoreSound current (some i) c info) (passed : c < i) : CoreSound current none c info := by
  obtain ⟨mine,rest⟩ := sound
  refine ⟨.inl ?_,rest⟩
  rcases mine with stored | ⟨_,_,loop,_⟩
  · exact stored
  · cases loop; omega

theorem CoreSound.sync (sound : CoreSound current (some c) c info) (free : info.currentTick = current ∨ info.phase = .outside) :
    CoreSound current (some (c + 1)) c ⟨current,info.phase⟩ := by
  refine ⟨.inl rfl,?_⟩
  rcases free with stored | outside
  · obtain ⟨_,rest⟩ := sound
    rcases info with ⟨_,phase⟩
    cases phase with
    | read seen | inside seen depth => simp only at rest stored ⊢; omega
    | _ => trivial
  · rw [outside]; trivial

theorem CoreSound.pass (sound : CoreSound current (some i) c info) (other : c ≠ i) : CoreSound current (some (i + 1)) c info := by
  obtain ⟨mine,rest⟩ := sound
  refine ⟨?_,rest⟩
  rcases mine with stored | ⟨lags,_,loop,_⟩
  · exact .inl stored
  · cases loop
    exact .inr ⟨lags,i + 1,rfl,by omega⟩

section
variable (sound : Sound cores s)
include sound

theorem Sound.own (inRange : c < cores)
    (mine : CoreSound s.currentTick s.loop c (s.ticks c) → CoreSound s.currentTick s.loop c ⟨tick,p⟩) :
    Sound cores (s.setTick c tick p) where
  last := sound.last
  core := by
    refine (Function.forall_update_iff s.ticks (fun d info => d < cores → CoreSound s.currentTick s.loop d info)).mpr ⟨?_,?_⟩
    · intro _
      exact mine (sound.core c inRange)
    · intro d _ ofRange
      exact sound.core d ofRange
  within := by
    intro d out
    rw [setTick_other _ (by omega)]
    exact sound.within d out

theorem Sound.active (busy : s.phase c ≠ .outside) : c < cores := by
  by_contra out
  exact busy (sound.within c (by omega))

theorem Sound.step (taken : step cores s a = some t) : Sound cores t := by
  cases a with
  | bump =>
    obtain ⟨between,rfl⟩ := of_guard taken
    have last := sound.last
    rw [between] at last
    refine ⟨by simp only [Option.isNone_none,if_true] at last; simp; omega,?_,sound.within⟩
    intro c inRange
    have core := sound.core c inRange
    rw [between] at core
    exact core.bump
  | sync =>
    simp only [Ticker.step] at taken
    split at taken
    · cases taken
    rename_i i round
    obtain ⟨⟨inRange,free⟩,rfl⟩ := of_guard taken
    have core := sound.core
    rw [round] at core
    refine ⟨by simpa [round,setTick] using sound.last,?_,?_⟩
    · refine (Function.forall_update_iff s.ticks
        (fun d info => d < cores → CoreSound s.currentTick (some (i + 1)) d info)).mpr ⟨?_,?_⟩
      · intro _
        exact (core i inRange).sync free
      · intro d other ofRange
        exact (core d ofRange).pass other
    · intro d out
      exact (setTick_other s (by omega)).trans (sound.within d out)
  | publish =>
    obtain ⟨round,rfl⟩ := of_guard taken
    have last := sound.last
    rw [round] at last
    refine ⟨by simp at last ⊢; omega,?_,sound.within⟩
    intro c inRange
    have core := sound.core c inRange
    rw [round] at core
    exact core.publish inRange
  | lock c | borrow c =>
    obtain ⟨⟨_,inRange⟩,rfl⟩ := of_guard taken
    exact sound.own inRange fun core => ⟨core.1,trivial⟩
  | readTick c =>
    obtain ⟨holding,rfl⟩ := of_guard taken
    exact sound.own (sound.active (by simp [holding])) fun core => ⟨core.1,.inl rfl⟩
  | storeTick c =>
    simp only [Ticker.step] at taken
    split at taken
    next tick holding =>
      cases taken
      apply sound.own (sound.active (by simp [holding]))
      intro core
      obtain ⟨mine,seen⟩ := core
      rw [show (s.ticks c).phase = .read tick from holding] at seen
      refine ⟨?_,rfl⟩
      rcases seen with current | ⟨lags,_⟩
      · exact .inl current
      · rcases mine with _ | behind
        · omega
        · exact .inr ⟨lags,behind.2⟩
    · cases taken
  | nest c =>
    simp only [Ticker.step] at taken
    split at taken
    next tick depth holding =>
      cases taken
      apply sound.own (sound.active (by simp [holding]))
      intro core
      obtain ⟨mine,seen⟩ := core
      rw [show (s.ticks c).phase = .inside tick depth from holding] at seen
      exact ⟨mine,seen⟩
    · cases taken
  | leave c =>
    simp only [Ticker.step] at taken
    split at taken
    next tick depth holding =>
      cases taken
      apply sound.own (sound.active (by simp [holding]))
      intro core
      obtain ⟨mine,seen⟩ := core
      rw [show (s.ticks c).phase = .inside tick depth from holding] at seen
      split
      · exact ⟨mine,trivial⟩
      · exact ⟨mine,seen⟩
    · cases taken
  | giveBack c =>
    obtain ⟨holding,rfl⟩ := of_guard taken
    exact sound.own (sound.active (by simp [holding])) fun core => ⟨core.1,trivial⟩

theorem Sound.guarded (holding : s.phase c = .inside tick depth) :
    s.lastTickInclusive < tick ∧ tick ≤ s.lastTickInclusive + 2 ∧ tick ≤ s.currentTick ∧ s.currentTick ≤ tick + 1 := by
  have core := sound.core c (sound.active (by simp [holding]))
  obtain ⟨mine,seen⟩ := core
  rw [show (s.ticks c).phase = .inside tick depth from holding] at seen
  have last := sound.last
  simp only at seen
  rcases mine with _ | ⟨_,_,loop,_⟩
  · split at last <;> omega
  · rw [loop] at last
    simp at last
    omega

end

def actCore : TickerAct → Option Nat
  | .bump | .sync | .publish => none
  | .lock c | .readTick c | .storeTick c | .nest c | .leave c | .borrow c | .giveBack c => some c

section
variable (taken : step cores s a = some t)
include taken

theorem step_own (own : actCore a = some c) : ∃ tick p, t = s.setTick c tick p := by
  cases a <;> simp only [actCore,Option.some.injEq,reduceCtorEq] at own <;> subst own <;> simp only [step] at taken <;>
    split at taken <;> first | cases taken; exact ⟨_,_,rfl⟩ | cases taken

theorem step_global (global : actCore a = none) :
    (∀ c, t.phase c = s.phase c) ∧ s.currentTick ≤ t.currentTick ∧
      (t.lastTickInclusive = s.lastTickInclusive ∨ t.lastTickInclusive = s.currentTick - 1) := by
  cases a with
  | bump =>
    obtain ⟨_,rfl⟩ := of_guard taken
    exact ⟨fun _ => rfl,Nat.le_succ _,.inl rfl⟩
  | sync =>
    simp only [step] at taken
    split at taken
    · cases taken
    rename_i i _
    obtain ⟨_,rfl⟩ := of_guard taken
    refine ⟨?_,Nat.le_refl _,.inl rfl⟩
    intro c
    by_cases same : c = i
    · subst same
      exact setTick_self s
    · exact setTick_other s same
  | publish =>
    obtain ⟨_,rfl⟩ := of_guard taken
    exact ⟨fun _ => rfl,Nat.le_refl _,.inr rfl⟩
  | _ => cases global

theorem step_phase_other (other : actCore a ≠ some c) : t.phase c = s.phase c := by
  cases own : actCore a with
  | some d =>
    obtain ⟨_,_,rfl⟩ := step_own taken own
    exact setTick_other s (fun same => other (same ▸ own))
  | none => exact (step_global taken own).1 c

theorem step_currentTick : s.currentTick ≤ t.currentTick := by
  cases own : actCore a with
  | some d =>
    obtain ⟨_,_,rfl⟩ := step_own taken own
    exact Nat.le_refl _
  | none => exact (step_global taken own).2.1

end

theorem step_lastTickInclusive (sound : Sound cores s) (taken : step cores s a = some t) :
    s.lastTickInclusive ≤ t.lastTickInclusive := by
  cases own : actCore a with
  | some d =>
    obtain ⟨_,_,rfl⟩ := step_own taken own
    exact Nat.le_refl _
  | none =>
    have last := sound.last
    obtain ⟨_,_,_ | _⟩ := step_global taken own
    · omega
    · split at last <;> omega

theorem step_inside (taken : step cores s a = some t) (holding : s.phase c = .inside tick depth) (stays : a ≠ .leave c) :
    ∃ deeper, t.phase c = .inside tick deeper := by
  by_cases own : actCore a = some c
  · cases a <;> simp only [actCore,Option.some.injEq,reduceCtorEq] at own <;> subst own <;> simp_all [step]
    exact ⟨depth + 1,by rw [← taken]; simp⟩
  · exact ⟨depth,(step_phase_other taken own).trans holding⟩

def machine (cores : Nat) : Machine Ticker TickerAct := ⟨initial,step cores⟩

theorem Reached.sound (reached : (machine cores).Reached Machine.anyStep s) : Sound cores s :=
  reached.invariant (m := machine cores) (Sound cores) initial_sound fun _ _ _ _ sound _ taken => sound.step taken

-- What comes after a state while the core stays inside its guard, nested guards entered and
-- left on the way.
inductive Holding (cores c : Nat) (s : Ticker) : Ticker → Prop where
  | now : Holding cores c s s
  | later (before : Holding cores c s t) (taken : step cores t a = some u) (stays : u.phase c = .inside tick depth) : Holding cores c s u

theorem step_guard (taken : step cores s a = some t) (holding : s.phase c = .inside tick depth)
    (stays : t.phase c = .inside tick' depth') : tick' = tick := by
  by_cases leaves : a = .leave c
  · subst leaves
    simp only [step,holding,Option.some.injEq] at taken
    rw [← taken,setPhase_self] at stays
    split at stays
    · cases stays
    · exact (Phase.inside.inj stays).1.symm
  · obtain ⟨_,same⟩ := step_inside taken holding leaves
    rw [stays] at same
    exact (Phase.inside.inj same).1

theorem Holding.same (later : Holding cores c s t) (sound : Sound cores s) (holding : s.phase c = .inside tick depth) :
    Sound cores t ∧ ∃ depth, t.phase c = .inside tick depth := by
  induction later with
  | now => exact ⟨sound,depth,holding⟩
  | later _ taken stays ih =>
    obtain ⟨before,_,inside⟩ := ih
    obtain rfl := step_guard taken inside stays
    exact ⟨before.step taken,_,stays⟩

-- The bounds every guard relies on. The tick a nested guard takes over is the outer one's,
-- and what a round finds at a core is the tick before it or the new one.
theorem guard_bounds (cores : Nat) (s : Ticker) (reached : (machine cores).Reached Machine.anyStep s) :
    (∀ c tick depth, s.phase c = .inside tick depth →
      (s.ticks c).currentTick = tick ∧ s.lastTickInclusive < tick ∧ tick ≤ s.currentTick ∧ s.currentTick ≤ tick + 1 ∧
      ∀ t, Holding cores c s t → t.globalLastTickExclusive ≤ s.globalLastTickExclusive + 1 ∧
        s.globalLastTickExclusive ≤ t.globalLastTickExclusive + 1) ∧
    ∀ c < cores, (s.ticks c).currentTick = s.currentTick ∨ (s.ticks c).currentTick + 1 = s.currentTick := by
  have sound := Reached.sound reached
  refine ⟨?_,fun c inRange => (sound.core c inRange).1.imp_right And.left⟩
  intro c tick depth holding
  have core := (sound.core c (sound.active (by simp [holding]))).2
  rw [show (s.ticks c).phase = .inside tick depth from holding] at core
  obtain ⟨past,_,started,ahead⟩ := sound.guarded holding
  refine ⟨core,past,started,ahead,?_⟩
  intro t later
  obtain ⟨after,_,inside⟩ := later.same sound holding
  obtain ⟨_,_⟩ := after.guarded inside
  unfold globalLastTickExclusive
  omega

theorem guard_bounds_in_round : ∃ s, (machine 1).Reached Machine.anyStep s ∧ s.phase 0 = .inside 1 1 ∧ s.currentTick = 2 ∧
    s.lastTickInclusive < 1 := by
  obtain ⟨s,reached,holding,bumped⟩ := Machine.reached_of_run (machine 1) Machine.anyStep
    (fun s => s.phase 0 = .inside 1 1 ∧ s.currentTick = 2) [.lock 0,.readTick 0,.storeTick 0,.bump] (by decide +kernel)
  exact ⟨s,reached,holding,bumped,((guard_bounds 1 s reached).1 0 1 1 holding).2.1⟩

end Ticker
end DbExp.Silo
